import Alphabox.Marvel.Restore
import Alphabox.Marvel.Proof.Pop

/-!
# A restored machine goes on as the saved one

`Sim`: two machines that differ at most in the marks of LSIs that do not wait, and in the fields of
the EV7's clock rendezvous, which 21464 mode does not read. Every operation keeps it. A restored
machine is so related to the saved one, less its held GIO transactions, when the machine it was
restored into holds none and has marked what waits in the saved one, and only then does it go on
as that one.
-/

namespace Alphabox.Marvel

variable {σ : Type} {M : Management σ} {b : Board}

/-! ## The clock rendezvous -/

namespace Csr

variable {pid off dsize : Nat} {c : Csr} {w : World σ} {data iid : BitVec 64} {p q : Bool}

/-- The block with other fields of the clock rendezvous. -/
def withSync (c : Csr) (p q : Bool) : Csr := { c with syncWaiting := p, syncHeld := q }

theorem withSync_reg : (c.withSync p q).reg off = c.reg off := rfl

theorem setReg_withSync : (c.withSync p q).setReg off data = (c.setReg off data).withSync p q := rfl

theorem updateIrq_withSync (hm : b.m21464 = true) :
    (c.withSync p q).updateIrq b pid = (c.updateIrq b pid).withSync p q := by
  simp only [updateIrq, hm, if_true]
  rfl

theorem queueIid_withSync : (c.withSync p q).queueIid b iid =
    (c.queueIid b iid).map fun c => c.withSync p q := by
  unfold queueIid
  split
  · rename_i h
    rw [if_pos (show b.m21464 = true ∧ kIntQueue21464 ≤ c.intq.length from h)]
    rfl
  · rename_i h
    rw [if_neg (show ¬ (b.m21464 = true ∧ kIntQueue21464 ≤ c.intq.length) from h)]
    rfl

theorem postIid_withSync (hm : b.m21464 = true) : (c.withSync p q).postIid b pid iid =
    (c.postIid b pid iid).map fun c => c.withSync p q := by
  unfold postIid
  rw [queueIid_withSync]
  cases c.queueIid b iid with
  | none => rfl
  | some c => exact congrArg some (updateIrq_withSync hm)

theorem writeScratch_withSync : (c.withSync p q).writeScratch pid w data =
    ((c.writeScratch pid w data).1.withSync p q, (c.writeScratch pid w data).2) := by
  simp only [writeScratch]
  have hv : ((c.withSync p q).setReg RBOX_SCRATCH1 data).startHiValid =
      (c.setReg RBOX_SCRATCH1 data).startHiValid := rfl
  rw [hv]
  split_ifs <;> rfl

theorem writePlain_withSync : (c.withSync p q).writePlain off dsize data =
    (c.writePlain off dsize data).withSync p q := by
  unfold writePlain
  split
  · rfl
  · split
    · rfl
    · have hr : (c.withSync p q).regs off = c.regs off := rfl
      rw [hr]
      cases c.regs off <;> rfl

theorem writeCommon_withSync (hm : b.m21464 = true) (ho : off ≠ RBOX_INT) :
    (c.withSync p q).writeCommon M b pid w off dsize data =
      ((c.writeCommon M b pid w off dsize data).1.withSync p q,
        (c.writeCommon M b pid w off dsize data).2) := by
  simp only [writeCommon, ho, if_false]
  split_ifs
  · rfl
  · rfl
  · rw [setReg_withSync, updateIrq_withSync hm]
  · exact writeScratch_withSync
  · rw [writePlain_withSync]

theorem write21464_withSync (hm : b.m21464 = true) : (c.withSync p q).write21464 b pid off data =
    (c.write21464 b pid off data).map fun c => c.withSync p q := by
  simp only [write21464]
  generalize (if off = R_INT_MASK_TPU then RBOX_IMASK else off) = r
  split_ifs
  · rw [setReg_withSync, updateIrq_withSync hm]
    rfl
  · rfl
  · rw [withSync_reg, setReg_withSync, updateIrq_withSync hm]
    rfl
  · rw [setReg_withSync, queueIid_withSync, Option.map_some]
    refine congrArg some ?_
    rw [← updateIrq_withSync hm]
    cases (c.setReg RBOX_INTA data).queueIid b data <;> rfl
  · rfl

theorem writeIreq21464_withSync (hm : b.m21464 = true) :
    (c.withSync p q).writeIreq21464 b pid data = (c.writeIreq21464 b pid data).withSync p q := by
  simp only [writeIreq21464]
  rw [setReg_withSync, withSync_reg, setReg_withSync, updateIrq_withSync hm]

theorem writeIntq21464_withSync (hm : b.m21464 = true) :
    (c.withSync p q).writeIntq21464 b pid data =
      ((c.writeIntq21464 b pid data).1.withSync p q, (c.writeIntq21464 b pid data).2) := by
  simp only [writeIntq21464, Prod.mk.injEq]
  refine ⟨?_, rfl⟩
  rw [← updateIrq_withSync hm]
  refine congrArg _ ?_
  by_cases he : (c.intq.drop 1).isEmpty
  · rw [if_pos he, if_pos (show ((c.withSync p q).intq.drop 1).isEmpty from he)]
    rfl
  · rw [if_neg he, if_neg (show ¬ ((c.withSync p q).intq.drop 1).isEmpty from he)]
    rfl

/-- A write in 21464 mode does not read the fields of the rendezvous. -/
theorem write_withSync (hm : b.m21464 = true) :
    (c.withSync p q).write M b pid w off dsize data =
      ((c.write M b pid w off dsize data).1.withSync p q,
        (c.write M b pid w off dsize data).2) := by
  simp only [write, hm, true_and, if_true]
  split
  · rw [writeIntq21464_withSync hm]
  · split
    · rw [writeIreq21464_withSync hm]
    · rw [write21464_withSync hm]
      cases hw : c.write21464 b pid off data with
      | none => rw [Option.map_none, writeCommon_withSync hm (write21464_none hw)]
      | some c => rfl

theorem read_withSync : (c.withSync p q).read M b pid w off dsize =
    ((c.read M b pid w off dsize).1, (c.read M b pid w off dsize).2.1.withSync p q,
      (c.read M b pid w off dsize).2.2) := by
  simp only [read]
  split_ifs <;> rfl

end Csr

/-! ## The marks -/

namespace Io7

variable {io : Io7} {n port off dsize r : Nat} {data iid : BitVec 64} {ρ : Nat → Bool}

/-- The IO7 with other marks of what was refused. -/
def withMarks (io : Io7) (ρ : Nat → Bool) : Io7 := { io with refused := ρ }

theorem ready_withMarks : (io.withMarks ρ).ready n = io.ready n := rfl

theorem lsi_withMarks {assert : Bool} : (io.withMarks ρ).lsi n assert =
    ((io.lsi n assert).1.withMarks ρ, (io.lsi n assert).2) := by
  unfold lsi
  split <;> rfl

theorem endOfInterrupt_withMarks : (io.withMarks ρ).endOfInterrupt iid =
    ((io.endOfInterrupt iid).1.withMarks ρ, (io.endOfInterrupt iid).2) := by
  simp only [endOfInterrupt]
  split_ifs <;> rfl

theorem hpWrite_withMarks : (io.withMarks ρ).hpWrite port r data =
    (io.hpWrite port r data).map fun io => io.withMarks ρ := by
  simp only [hpWrite]
  split_ifs <;> rfl

theorem writePort_withMarks : (io.withMarks ρ).writePort port r dsize data =
    ((io.writePort port r dsize data).1.withMarks ρ, (io.writePort port r dsize data).2) := by
  have hset : (io.withMarks ρ).setReg port r dsize data =
      (io.setReg port r dsize data).withMarks ρ := rfl
  unfold writePort
  rw [hpWrite_withMarks]
  by_cases hr : HP_MISC ≤ r ∧ r ≤ HP_EVNT
  · simp only [hr, and_self, if_true]
    cases io.hpWrite port r data with
    | some io' => rfl
    | none =>
      simp only [Option.map_none]
      split_ifs
      · rfl
      · rw [hset, endOfInterrupt_withMarks]
      · rfl
  · simp only [hr, if_false]
    split_ifs
    · rfl
    · rw [hset, endOfInterrupt_withMarks]
    · rfl

theorem writePort7_withMarks : (io.withMarks ρ).writePort7 r dsize data =
    ((io.writePort7 r dsize data).1.withMarks ρ, (io.writePort7 r dsize data).2) := by
  unfold writePort7
  split <;> rfl

theorem write_withMarks : (io.withMarks ρ).write port off dsize data =
    ((io.write port off dsize data).1.withMarks ρ, (io.write port off dsize data).2) := by
  unfold write
  split
  · rfl
  · split
    · exact writePort_withMarks
    · split
      · exact writePort7_withMarks
      · rfl

theorem answered_withMarks {taken : Bool} : (io.withMarks ρ).answered n taken =
    (io.answered n taken).withMarks (Function.update ρ n !taken) := by
  cases taken <;> rfl

end Io7

/-! ## The simulation -/

variable {m r : Machine σ} {x n pid : Nat} {ns : List Nat}

/-- The relation (module doc), but for LSIs `ns` of IO7 `x`, which are yet to be delivered. -/
structure SimBut (b : Board) (x : Nat) (ns : List Nat) (m r : Machine σ) : Prop where
  io7 : ∀ y, ∃ ρ, r.io7 y = (m.io7 y).withMarks ρ
  csr : ∀ pid, ∃ p q, r.csr pid = (m.csr pid).withSync p q
  world : r.world = m.world
  marked : ∀ y n pid, m.Waiting b y n pid → ¬ (y = x ∧ n ∈ ns) →
    (m.io7 y).refused n = true ∧ (r.io7 y).refused n = true

def Sim (b : Board) (m r : Machine σ) : Prop := SimBut b 0 [] m r

theorem SimBut.mono {y : Nat} {ks : List Nat} (h : SimBut b x ns m r)
    (hsub : ∀ z n, z = x ∧ n ∈ ns → z = y ∧ n ∈ ks) : SimBut b y ks m r :=
  ⟨h.io7, h.csr, h.world, fun z n pid hw hn => h.marked z n pid hw fun hz => hn (hsub z n hz)⟩

theorem SimBut.ready (h : SimBut b x ns m r) (y k : Nat) : (r.io7 y).ready k = (m.io7 y).ready k := by
  obtain ⟨ρ, hρ⟩ := h.io7 y
  rw [hρ, Io7.ready_withMarks]

theorem SimBut.waiting (h : SimBut b x ns m r) {y k q : Nat} :
    r.Waiting b y k q ↔ m.Waiting b y k q := by
  unfold Machine.Waiting
  rw [h.ready]

/-- The two machines after a post. -/
theorem SimBut.post (h : SimBut b x ns m r) (hm : b.m21464 = true) (y k : Nat) :
    match m.post b y k, r.post b y k with
    | none, none => True
    | some (taken, m'), some (taken', r') => taken' = taken ∧ SimBut b x ns m' r' ∧
      m'.io7 = m.io7 ∧ r'.io7 = r.io7
    | _, _ => False := by
  unfold Machine.post
  rw [h.ready]
  cases (m.io7 y).ready k with
  | none => trivial
  | some pid =>
    by_cases hp : b.csr pid
    · simp only [hp, if_true]
      obtain ⟨p, q, hpq⟩ := h.csr pid
      rw [hpq, Csr.postIid_withSync hm]
      cases (m.csr pid).postIid b pid (iidOf y k) with
      | none => exact ⟨rfl, h, rfl, rfl⟩
      | some c =>
        refine ⟨rfl, ⟨h.io7, fun pid' => ?_, ?_, h.marked⟩, rfl, rfl⟩
        · change ∃ p q, (r.setCsr pid _).csr pid' = ((m.setCsr pid c).csr pid').withSync p q
          rw [Machine.setCsr_csr, Machine.setCsr_csr]
          split
          · exact ⟨p, q, rfl⟩
          · exact h.csr pid'
        · change r.world.note _ = m.world.note _
          rw [h.world]
    · simp only [hp]
      trivial

/-- The delivery of one of the LSIs. -/
theorem SimBut.deliver (h : SimBut b x (n :: ns) m r) (hm : b.m21464 = true) :
    SimBut b x ns (m.deliver b x n) (r.deliver b x n) := by
  have hpost := h.post hm x n
  unfold Machine.deliver
  cases hp : m.post b x n with
  | none =>
    cases hp' : r.post b x n with
    | some _ =>
      rw [hp, hp'] at hpost
      exact hpost.elim
    | none =>
      refine ⟨h.io7, h.csr, h.world, fun y k pid hw hn => h.marked y k pid hw ?_⟩
      rintro ⟨rfl, hk⟩
      rcases List.mem_cons.1 hk with rfl | hk
      · exact Machine.post_none hp hw
      · exact hn ⟨rfl, hk⟩
  | some a =>
    obtain ⟨taken, m'⟩ := a
    cases hp' : r.post b x n with
    | none =>
      rw [hp, hp'] at hpost
      exact hpost.elim
    | some a' =>
      obtain ⟨taken', r'⟩ := a'
      rw [hp, hp'] at hpost
      obtain ⟨rfl, hs, hio, hio'⟩ := hpost
      refine ⟨fun y => ?_, hs.csr, hs.world, fun y k pid hw hn => ?_⟩
      · change ∃ ρ, (r'.setIo7 x _).io7 y = ((m'.setIo7 x _).io7 y).withMarks ρ
        rw [Machine.setIo7_io7, Machine.setIo7_io7]
        split
        · obtain ⟨ρ, hρ⟩ := hs.io7 x
          rw [hρ, Io7.answered_withMarks]
          exact ⟨_, rfl⟩
        · exact hs.io7 y
      · obtain ⟨hy, hk, hready, hcsr⟩ := hw
        change ((m'.setIo7 x _).io7 y).ready k = some pid at hready
        change ((m'.setIo7 x _).io7 y).refused k = true ∧ ((r'.setIo7 x _).io7 y).refused k = true
        rw [Machine.setIo7_io7] at hready ⊢
        rw [Machine.setIo7_io7]
        by_cases hyx : y = x
        · subst hyx
          rw [if_pos rfl] at hready ⊢
          rw [if_pos rfl]
          by_cases hkn : k = n
          · subst hkn
            cases taken' with
            | true =>
              rw [Io7.ready_answered] at hready
              cases hready
            | false => exact ⟨by simp [Io7.answered], by simp [Io7.answered]⟩
          · rw [(Io7.answered_ne hkn).1] at hready
            rw [(Io7.answered_ne hkn).2.1, (Io7.answered_ne hkn).2.1]
            refine hs.marked y k pid ⟨hy, hk, hready, hcsr⟩ fun hmem => ?_
            exact hn ⟨rfl, (List.mem_cons.1 hmem.2).resolve_left hkn⟩
        · rw [if_neg hyx] at hready ⊢
          rw [if_neg hyx]
          exact hs.marked y k pid ⟨hy, hk, hready, hcsr⟩ fun hmem => hyx hmem.1

theorem SimBut.io7Op {ρ : Nat → Bool} {a : Io7 × List Nat} (h : Sim b m r) (hm : b.m21464 = true)
    (hρ : ∀ y, y = x → r.io7 y = (m.io7 y).withMarks ρ) (ha : Io7.Touches (m.io7 x) a) :
    Sim b (m.io7Op b x a) (r.io7Op b x (a.1.withMarks ρ, a.2)) := by
  have hset : SimBut b x a.2 (m.setIo7 x a.1) (r.setIo7 x (a.1.withMarks ρ)) := by
    refine ⟨fun y => ?_, h.csr, h.world, fun y k pid hw hn => ?_⟩
    · rw [Machine.setIo7_io7, Machine.setIo7_io7]
      split
      · exact ⟨ρ, rfl⟩
      · exact h.io7 y
    · obtain ⟨hy, hk, hready, hcsr⟩ := hw
      rw [Machine.setIo7_io7] at hready ⊢
      rw [Machine.setIo7_io7]
      by_cases hyx : y = x
      · subst hyx
        rw [if_pos rfl] at hready ⊢
        rw [if_pos rfl]
        have hold : (m.io7 y).ready k = some pid := by
          rcases ha.ready k hk fun hmem => hn ⟨rfl, hmem⟩ with he | he
          · rw [← he, hready]
          · rw [he] at hready
            cases hready
        have hmark := h.marked y k pid ⟨hy, hk, hold, hcsr⟩ (by simp)
        rw [hρ y rfl] at hmark
        rw [ha.refused]
        exact hmark
      · rw [if_neg hyx] at hready ⊢
        rw [if_neg hyx]
        exact h.marked y k pid ⟨hy, hk, hready, hcsr⟩ (by simp)
  unfold Machine.io7Op
  have hall : ∀ (ns : List Nat) (m r : Machine σ), SimBut b x ns m r →
      SimBut b x [] (ns.foldl (fun m n => m.deliver b x n) m)
        (ns.foldl (fun m n => m.deliver b x n) r) := by
    intro ns
    induction ns with
    | nil => exact fun m r h => h
    | cons n ns ih => exact fun m r h => ih _ _ (h.deliver hm)
  exact (hall a.2 _ _ hset).mono fun z n hz => nomatch hz.2

theorem Sim.deliverAgain (h : Sim b m r) (hm : b.m21464 = true) (hx : b.io7 x) (hn : n < kLsis) :
    Sim b (m.deliverAgain b x n) (r.deliverAgain b x n) := by
  by_cases hw : ∃ pid, m.Waiting b x n pid
  · obtain ⟨pid, hw⟩ := hw
    obtain ⟨h1, h2⟩ := h.marked x n pid hw (by simp)
    unfold Machine.deliverAgain
    rw [if_pos h1, if_pos h2]
    have hbut : SimBut b x [n] m r := h.mono fun z k hz => nomatch hz.2
    exact (hbut.deliver hm).mono fun z k hz => nomatch hz.2
  · rw [Machine.deliverAgain_idle hx hn fun pid hp => absurd ⟨pid, hp⟩ hw,
      Machine.deliverAgain_idle hx hn fun pid hp => absurd ⟨pid, h.waiting.1 hp⟩ hw]
    exact h

theorem Sim.resendIids (h : Sim b m r) (hm : b.m21464 = true) :
    Sim b (m.resendIids b) (r.resendIids b) := by
  rw [Machine.resendIids_eq, Machine.resendIids_eq]
  have hall : ∀ (l : List (Nat × Nat)), (∀ p ∈ l, p ∈ b.lsis) → ∀ m r : Machine σ, Sim b m r →
      Sim b (l.foldl (fun m p => m.deliverAgain b p.1 p.2) m)
        (l.foldl (fun m p => m.deliverAgain b p.1 p.2) r) := by
    intro l
    induction l with
    | nil => exact fun _ m r h => h
    | cons p l ih =>
      intro hl m r h
      obtain ⟨hp1, hp2⟩ := Board.mem_lsis.1 (hl p List.mem_cons_self)
      exact ih (fun q hq => hl q (List.mem_cons_of_mem p hq)) _ _ (h.deliverAgain hm hp1 hp2)
  exact hall b.lsis (fun _ h => h) m r h

theorem Sim.setCsr (h : Sim b m r) {c : Csr} {p q : Bool} {w : World σ} :
    Sim b { m.setCsr pid c with world := w } { r.setCsr pid (c.withSync p q) with world := w } := by
  refine ⟨h.io7, fun pid' => ?_, rfl, h.marked⟩
  change ∃ p' q', (r.setCsr pid _).csr pid' = ((m.setCsr pid c).csr pid').withSync p' q'
  rw [Machine.setCsr_csr, Machine.setCsr_csr]
  split
  · exact ⟨p, q, rfl⟩
  · exact h.csr pid'

/-- One operation. -/
theorem Sim.step (h : Sim b m r) (hm : b.m21464 = true) (op : Machine.Op) :
    (r.step M b op).1 = (m.step M b op).1 ∧ Sim b (m.step M b op).2 (r.step M b op).2 := by
  cases op with
  | interrupt number assert =>
    simp only [Machine.step]
    obtain ⟨ρ, hρ⟩ := h.io7 (number >>> 8)
    split
    · rw [hρ, Io7.lsi_withMarks]
      exact ⟨trivial, SimBut.io7Op h hm (fun y hy => by rw [hy, hρ]) Io7.lsi_touches⟩
    · exact ⟨trivial, h⟩
  | io7Write x port off dsize data =>
    simp only [Machine.step]
    obtain ⟨ρ, hρ⟩ := h.io7 x
    split
    · rw [hρ, Io7.write_withMarks]
      exact ⟨trivial, SimBut.io7Op h hm (fun y hy => by rw [hy, hρ]) Io7.write_touches⟩
    · exact ⟨trivial, h⟩
  | csrWrite pid off dsize data =>
    simp only [Machine.step]
    obtain ⟨p, q, hpq⟩ := h.csr pid
    split
    · rw [hpq, h.world, Csr.write_withSync hm]
      refine ⟨rfl, ?_⟩
      split
      · exact h.setCsr.resendIids hm
      · exact h.setCsr
    · exact ⟨rfl, h⟩
  | csrRead pid off dsize =>
    simp only [Machine.step]
    obtain ⟨p, q, hpq⟩ := h.csr pid
    split
    · rw [hpq, h.world, Csr.read_withSync]
      exact ⟨rfl, h.setCsr⟩
    · exact ⟨rfl, h⟩

theorem Sim.goesOn (h : Sim b m r) (hm : b.m21464 = true) : r.GoesOnAs M b m := by
  intro ops
  induction ops generalizing m r with
  | nil => rfl
  | cons op ops ih =>
    obtain ⟨hv, hs⟩ := h.step (M := M) hm op
    simp only [Machine.answers]
    rw [ih hs, hv]
    refine congrArg (· :: _) ?_
    unfold Machine.answer
    have hq : ∀ pid, ((r.step M b op).2.csr pid).intq = ((m.step M b op).2.csr pid).intq ∧
        ((r.step M b op).2.csr pid).lines8 = ((m.step M b op).2.csr pid).lines8 := by
      intro pid
      obtain ⟨p, q, hpq⟩ := hs.csr pid
      rw [hpq]
      exact ⟨rfl, rfl⟩
    simp only [hq, hs.world]

/-! ## The lines -/

namespace Csr

variable {off dsize : Nat} {c : Csr} {w : World σ} {data iid : BitVec 64}

/-- The lines that the registers assert. -/
def linesOf (b : Board) (pid : Nat) (c : Csr) (t : Nat) : Nat :=
  if t < b.tpus ∧ t < 4 ∧ b.tpuCpu pid t then
    assertedLines levelMask21464 (c.reg RBOX_INT &&& 0xffffffff#64 &&& c.reg (maskReg t))
  else 0

/-- In 21464 mode the lines follow the registers. -/
def Lined (b : Board) (pid : Nat) (c : Csr) : Prop := c.lines = 0 ∧ c.lines8 = c.linesOf b pid

theorem linesOf_congr {c' : Csr} (hi : c'.reg RBOX_INT = c.reg RBOX_INT)
    (hm : ∀ t < 4, c'.reg (maskReg t) = c.reg (maskReg t)) : c'.linesOf b pid = c.linesOf b pid := by
  funext t
  unfold linesOf
  split
  · rename_i h
    rw [hi, hm t h.2.1]
  · rfl

/-- Where the lines are brought up to date they follow whatever the registers now hold. -/
theorem Lined.update {c' : Csr} (h : c.Lined b pid) (hm : b.m21464 = true)
    (hl : c'.lines = c.lines) (hl8 : c'.lines8 = c.lines8) : (c'.updateIrq b pid).Lined b pid := by
  simp only [updateIrq, hm, if_true]
  refine ⟨hl.trans h.1, ?_⟩
  funext t
  simp only [updateIrq21464, linesOf, hl8, h.2]
  split
  · rfl
  · rfl

/-- Elsewhere no register that they depend on changes. -/
theorem Lined.keep {c' : Csr} (h : c.Lined b pid) (hl : c'.lines = c.lines)
    (hl8 : c'.lines8 = c.lines8) (hi : c'.reg RBOX_INT = c.reg RBOX_INT)
    (hm : ∀ t < 4, c'.reg (maskReg t) = c.reg (maskReg t)) : c'.Lined b pid :=
  ⟨hl.trans h.1, by rw [hl8, h.2, linesOf_congr hi hm]⟩

theorem Lined.congr {c' : Csr} (h : c.Lined b pid) (hl : c'.lines = c.lines)
    (hl8 : c'.lines8 = c.lines8) (hr : c'.regs = c.regs) : c'.Lined b pid := by
  refine h.keep hl hl8 ?_ fun t _ => ?_
  · simp only [reg, hr]
  · simp only [reg, hr]

theorem isMaskReg_maskReg : ∀ t < 4, isMaskReg (maskReg t) = true := by
  decide

theorem Lined.setReg (h : c.Lined b pid) (h1 : off ≠ RBOX_INT) (h2 : isMaskReg off = false) :
    (c.setReg off data).Lined b pid := by
  refine h.keep rfl rfl ?_ fun t ht => ?_
  · rw [reg_setReg, if_neg h1.symm]
  · rw [reg_setReg, if_neg]
    intro he
    rw [← he, isMaskReg_maskReg t ht] at h2
    cases h2

theorem write21464_plain (h : c.write21464 b pid off data = none) :
    off ≠ RBOX_INT ∧ isMaskReg off = false := by
  refine ⟨write21464_none h, ?_⟩
  simp only [write21464] at h
  by_cases ho : off = R_INT_MASK_TPU
  · rw [if_pos ho] at h
    split_ifs at h with h1
    exact absurd (by decide) h1
  · rw [if_neg ho] at h
    split_ifs at h with h1
    simpa using h1

theorem Lined.post {c' : Csr} (h : c.Lined b pid) (hm : b.m21464 = true)
    (hp : c.postIid b pid iid = some c') : c'.Lined b pid := by
  rw [postIid, queueIid_of_room (postIid_spec hp).1] at hp
  cases hp
  exact h.update hm rfl rfl

theorem Lined.writeScratch (h : c.Lined b pid) : (c.writeScratch pid w data).1.Lined b pid := by
  have hs : ∀ {c : Csr} {v : BitVec 64}, c.Lined b pid → (c.setReg RBOX_SCRATCH1 v).Lined b pid :=
    fun hc => hc.setReg (by decide) (by decide)
  simp only [Csr.writeScratch]
  split_ifs
  · exact hs h
  · exact hs ((hs (v := data) h).congr rfl rfl rfl)
  · exact (hs (v := data) h).congr rfl rfl rfl
  · exact hs h

theorem Lined.writePlain (h : c.Lined b pid) (h1 : off ≠ RBOX_INT) (h2 : isMaskReg off = false) :
    (c.writePlain off dsize data).Lined b pid := by
  unfold Csr.writePlain
  split
  · exact h
  · split
    · exact h.setReg (by decide) (by decide)
    · split
      · exact h
      · exact h.setReg h1 h2

theorem Lined.writeCommon (h : c.Lined b pid) (hm : b.m21464 = true) (h1 : off ≠ RBOX_INT)
    (h2 : isMaskReg off = false) : (c.writeCommon M b pid w off dsize data).1.Lined b pid := by
  simp only [Csr.writeCommon, h1, if_false]
  split_ifs
  · exact h
  · refine (h.setReg ?_ ?_).congr (c := c.setReg RBOX_INTQ data) rfl rfl rfl
    · decide
    · decide
  · exact h.update hm rfl rfl
  · exact h.writeScratch
  · exact h.writePlain h1 h2

theorem Lined.write (h : c.Lined b pid) (hm : b.m21464 = true) :
    (c.write M b pid w off dsize data).1.Lined b pid := by
  simp only [Csr.write, hm, true_and, if_true]
  split
  · refine h.update hm ?_ ?_
    · split <;> rfl
    · split <;> rfl
  · split
    · exact h.update hm rfl rfl
    · cases hw : c.write21464 b pid off data with
      | none => exact h.writeCommon hm (write21464_plain hw).1 (write21464_plain hw).2
      | some c' =>
        simp only [write21464] at hw
        generalize (if off = R_INT_MASK_TPU then RBOX_IMASK else off) = r at hw
        split_ifs at hw
        · cases hw
          exact h.update hm rfl rfl
        · cases hw
          exact h
        · cases hw
          exact h.update hm rfl rfl
        · cases hw
          refine h.update hm ?_ ?_
          · unfold queueIid
            split <;> rfl
          · unfold queueIid
            split <;> rfl

theorem Lined.read (h : c.Lined b pid) : (c.read M b pid w off dsize).2.1.Lined b pid := by
  simp only [Csr.read]
  split_ifs <;> exact h

theorem Lined.reset : (Csr.reset b pid).Lined b pid := by
  refine ⟨rfl, ?_⟩
  funext t
  have hz : assertedLines levelMask21464 0 = 0 := by decide
  unfold linesOf
  split
  · have h0 : (Csr.reset b pid).reg RBOX_INT = 0#64 := by simp [reg, Csr.reset]
    rw [h0, BitVec.zero_and, BitVec.zero_and]
    exact hz.symm
  · rfl

end Csr

/-- What every operation of a block keeps holds of every block of a machine that runs. -/
theorem Machine.Run.csr_inv {P : Nat → Csr → Prop} (hreset : ∀ pid, P pid (.reset b pid))
    (hpost : ∀ pid c c' iid, b.csr pid → P pid c → c.postIid b pid iid = some c' → P pid c')
    (hwrite : ∀ pid c w off dsize data, b.csr pid → P pid c →
      P pid (c.write M b pid w off dsize data).1)
    (hread : ∀ pid c w off dsize, b.csr pid → P pid c → P pid (c.read M b pid w off dsize).2.1)
    (h : m.Run M b) (pid : Nat) : P pid (m.csr pid) := by
  -- a block that is replaced, a delivery, an operation of an IO7 and a resend keep it
  have hset : ∀ (m : Machine σ) q c, (∀ pid, P pid (m.csr pid)) → P q c →
      ∀ pid, P pid ((m.setCsr q c).csr pid) := by
    intro m q c hm hc pid
    rw [setCsr_csr]
    split
    · rename_i he
      rw [he]
      exact hc
    · exact hm pid
  have hdeliver : ∀ (m : Machine σ) x n, (∀ pid, P pid (m.csr pid)) →
      ∀ pid, P pid ((m.deliver b x n).csr pid) := by
    intro m x n hm
    unfold deliver
    split
    · exact hm
    · rename_i hp
      obtain ⟨q, -, hq, ⟨-, c, hc, rfl⟩ | ⟨-, -, rfl⟩⟩ := post_spec hp
      · exact hset m q c hm (hpost q _ c _ hq (hm q) hc)
      · exact hm
  have hio7 : ∀ (m : Machine σ) x a, (∀ pid, P pid (m.csr pid)) →
      ∀ pid, P pid ((m.io7Op b x a).csr pid) := by
    intro m x a hm
    unfold io7Op
    generalize a.2 = ns
    have hm' : ∀ pid, P pid ((m.setIo7 x a.1).csr pid) := hm
    generalize m.setIo7 x a.1 = m' at hm'
    induction ns generalizing m' with
    | nil => exact hm'
    | cons n ns ih => exact ih _ (hdeliver m' x n hm')
  have hresend : ∀ (m : Machine σ), (∀ pid, P pid (m.csr pid)) →
      ∀ pid, P pid ((m.resendIids b).csr pid) := by
    intro m hm
    rw [resendIids_eq]
    generalize b.lsis = l
    induction l generalizing m with
    | nil => exact hm
    | cons p l ih =>
      refine ih (m.deliverAgain b p.1 p.2) ?_
      unfold deliverAgain
      split
      · exact hdeliver m p.1 p.2 hm
      · exact hm
  refine Lib.Reach.inv (P := fun m : Machine σ => ∀ pid, P pid (m.csr pid)) ?_ ?_ h pid
  · rintro m ⟨w, rfl⟩ pid
    exact hreset pid
  · intro m op hm _
    cases op with
    | interrupt number assert =>
      simp only [step]
      split
      · exact hio7 m _ _ hm
      · exact hm
    | io7Write x port off dsize data =>
      simp only [step]
      split
      · exact hio7 m _ _ hm
      · exact hm
    | csrWrite pid off dsize data =>
      simp only [step]
      split
      · rename_i hp
        have hw := hset m pid _ hm (hwrite pid _ m.world off dsize data hp (hm pid))
        split
        · exact hresend _ hw
        · exact hw
      · exact hm
    | csrRead pid off dsize =>
      simp only [step]
      split
      · rename_i hp
        exact hset m pid _ hm (hread pid _ m.world off dsize hp (hm pid))
      · exact hm

theorem Machine.Run.lined (h : m.Run M b) (hm : b.m21464 = true) (pid : Nat) :
    (m.csr pid).Lined b pid :=
  h.csr_inv (P := fun pid c => c.Lined b pid) (fun _ => Csr.Lined.reset)
    (fun _ _ _ _ _ hc hp => hc.post hm hp) (fun _ _ _ _ _ _ _ hc => hc.write hm)
    (fun _ _ _ _ _ _ hc => hc.read) pid

/-- A block that nobody reaches holds no GIO transaction. -/
theorem Machine.Run.unheld (h : m.Run M b) (hp : b.csr pid = false) :
    (m.csr pid).gio.held = .none := by
  refine h.csr_inv (P := fun pid c => b.csr pid = false → c.gio.held = .none) ?_ ?_ ?_ ?_ pid hp
  · exact fun _ _ => rfl
  · intro pid c c' iid hc _ _ hf
    rw [hf] at hc
    cases hc
  · intro pid c w off dsize data hc _ hf
    rw [hf] at hc
    cases hc
  · intro pid c w off dsize hc _ hf
    rw [hf] at hc
    cases hc

/-! ## The restored machine -/

variable {m' : Machine σ}

/-- A restored block is the saved one, with what the machine restored into holds for its GIO
clock. -/
theorem restored_csr (hm : b.m21464 = true) (h : m.Run M b) (m' : Machine σ) (pid : Nat) :
    ∃ p q, (m.restored b m').csr pid = Csr.withSync { m.csr pid with
      gio := { (m.csr pid).gio with held := (m'.csr pid).gio.held } } p q := by
  obtain ⟨hl, hl8⟩ := h.lined hm pid
  refine ⟨(m.csr pid).reg RBOX_INT &&& INT_SYNC == 0, false, ?_⟩
  simp only [Machine.restored, Machine.restore, Machine.save, Csr.restore, Csr.save, Csr.updateIrq, hm,
    if_true, Csr.updateIrq21464, Csr.withSync, GioPort.restore, GioPort.save]
  rw [hl, hl8]
  rfl

theorem Machine.Inv.dropHeld (h : m.Inv b) : m.dropHeld.Inv b :=
  ⟨h.waits, h.ok⟩

theorem sim_restored (hm : b.m21464 = true) (h : m.Run M b) (h' : m'.Run M b)
    (hmark : ∀ x n pid, m.Waiting b x n pid → (m'.io7 x).refused n = true)
    (hheld : ∀ pid, b.csr pid → (m'.csr pid).gio.held = .none) :
    Sim b m.dropHeld (m.restored b m') := by
  refine ⟨fun y => ⟨(m'.io7 y).refused, rfl⟩, fun pid => ?_, rfl, fun y n pid hw _ => ?_⟩
  · obtain ⟨p, q, hpq⟩ := restored_csr hm h m' pid
    have hnone : (m'.csr pid).gio.held = .none := by
      cases hp : b.csr pid with
      | true => exact hheld pid hp
      | false => exact h'.unheld hp
    rw [hnone] at hpq
    exact ⟨p, q, hpq⟩
  · exact ⟨(h.inv.waits y n pid hw).1, hmark y n pid hw⟩

/-! ## What tells two machines apart -/

theorem Machine.GoesOnAs.step (h : r.GoesOnAs M b m) (op : Machine.Op) :
    Machine.GoesOnAs M b (r.step M b op).2 (m.step M b op).2 ∧
      (r.step M b op).2.answer (r.step M b op).1 = (m.step M b op).2.answer (m.step M b op).1 := by
  refine ⟨fun ops => ?_, ?_⟩
  · exact (List.cons.inj (h (op :: ops))).2
  · exact (List.cons.inj (h [op])).1

theorem Csr.write_gioCfg (hm : b.m21464 = true) {c : Csr} {w : World σ} {dsize : Nat}
    {data : BitVec 64} : c.write M b pid w GIO_CFG dsize data =
      ({ c with gio := (c.gio.writeCfg M true pid w data).1 },
        (c.gio.writeCfg M true pid w data).2, false) := by
  have h1 : GIO_CFG ≠ RBOX_INTQ := by decide
  have h2 : GIO_CFG ≠ RBOX_IREQ := by decide
  have h3 : GIO_CFG ≠ R_INT_MASK_TPU := by decide
  have h4 : isMaskReg GIO_CFG = false := by decide
  have h5 : GIO_CFG ≠ GIO_LOCK := by decide
  have h6 : GIO_CFG ≠ RBOX_INT := by decide
  have h7 : GIO_CFG ≠ RBOX_INTA := by decide
  simp [Csr.write, hm, h1, h2, Csr.write21464, h3, h4, h5, h6, h7, Csr.writeCommon, Csr.writeGio]

/-- The clock starts: a held transaction runs, and nothing runs if none is held. -/
theorem GioPort.writeCfg_events {g : GioPort} {w : World σ} :
    (g.writeCfg M true pid w 2).2.events.length =
      w.events.length + if g.held = .none then 0 else 1 := by
  cases hh : g.held with
  | none => simp [writeCfg, clockRuns, hh]
  | read reg =>
    simp only [writeCfg, clockRuns, hh, startRead]
    cases (M.gioRead w.far pid reg).1 <;> simp [World.note]
  | write reg v => simp [writeCfg, clockRuns, hh, startWrite, World.note]

theorem step_gioCfg (hm : b.m21464 = true) (hp : b.csr pid) :
    (m.step M b (.csrWrite pid GIO_CFG 64 2)).2.world.events.length =
      m.world.events.length + if (m.csr pid).gio.held = .none then 0 else 1 := by
  simp only [Machine.step, hp, if_true, Csr.write_gioCfg hm]
  exact GioPort.writeCfg_events

theorem unheld_of_goesOn (hm : b.m21464 = true) (h : m.Run M b)
    (hg : (m.restored b m').GoesOnAs M b m.dropHeld) (hp : b.csr pid) :
    (m'.csr pid).gio.held = .none := by
  have ha := congrArg (fun a => a.events.length) (hg.step (.csrWrite pid GIO_CFG 64 2)).2
  simp only [Machine.answer, step_gioCfg hm hp] at ha
  obtain ⟨p, q, hpq⟩ := restored_csr hm h m' pid
  rw [hpq] at ha
  by_contra hne
  simp [Machine.dropHeld, Csr.withSync, Machine.restored, Machine.restore, hne] at ha

/-! ## An LSI that the restored machine does not mark -/

/-- The lines of the LSIs in `l` go low. -/
def lowers (l : List (Nat × Nat)) : List Machine.Op :=
  l.map fun p => .interrupt (p.1 * 256 + p.2) false

def Machine.run (M : Management σ) (b : Board) (m : Machine σ) (ops : List Machine.Op) : Machine σ :=
  ops.foldl (fun m op => (m.step M b op).2) m

theorem Machine.GoesOnAs.run (h : r.GoesOnAs M b m) (ops : List Machine.Op) :
    Machine.GoesOnAs M b (r.run M b ops) (m.run M b ops) := by
  induction ops generalizing m r with
  | nil => exact h
  | cons op ops ih => exact ih (h.step op).1

theorem step_lower (hx : b.io7 x) (hn : n < kLsis) :
    (m.step M b (.interrupt (x * 256 + n) false)).2 =
      m.setIo7 x { m.io7 x with level := Function.update (m.io7 x).level n false } := by
  unfold kLsis at hn
  have h1 : (x * 256 + n) >>> 8 = x := by
    rw [Nat.shiftRight_eq_div_pow]
    omega
  have h2 : (x * 256 + n) &&& 0xff = n := by
    rw [show 0xff = 2 ^ 8 - 1 from rfl, Nat.and_two_pow_sub_one_eq_mod]
    omega
  have h3 : ¬ kLsis ≤ n := by
    unfold kLsis
    omega
  simp [Machine.step, h1, h2, hx, Machine.io7Op, Io7.lsi, h3]

/-- What the machine is when the lines of `l` are low. -/
theorem run_lowers {l : List (Nat × Nat)} (hl : ∀ p ∈ l, b.io7 p.1 ∧ p.2 < kLsis) :
    (m.run M b (lowers l)).csr = m.csr ∧
      (∀ y, ((m.run M b (lowers l)).io7 y).refused = (m.io7 y).refused) ∧
      ∀ y k, ((m.run M b (lowers l)).io7 y).ready k =
        if (y, k) ∈ l then none else (m.io7 y).ready k := by
  induction l generalizing m with
  | nil => simp [lowers, Machine.run]
  | cons p l ih =>
    obtain ⟨hp1, hp2⟩ := hl p List.mem_cons_self
    obtain ⟨h1, h2, h3⟩ := ih (m := (m.step M b (.interrupt (p.1 * 256 + p.2) false)).2)
      fun q hq => hl q (List.mem_cons_of_mem p hq)
    have hrun : m.run M b (lowers (p :: l)) =
        (m.step M b (.interrupt (p.1 * 256 + p.2) false)).2.run M b (lowers l) := rfl
    rw [hrun, h1]
    refine ⟨?_, fun y => ?_, fun y k => ?_⟩
    · rw [step_lower hp1 hp2, Machine.setIo7_csr]
    · rw [h2, step_lower hp1 hp2, Machine.setIo7_io7]
      split
      · rename_i hy
        rw [hy]
      · rfl
    · rw [h3, step_lower hp1 hp2, Machine.setIo7_io7]
      by_cases hk : (y, k) ∈ l
      · simp [hk]
      · by_cases hyk : (y, k) = p
        · subst hyk
          simp [Io7.ready]
        · have hmem : (y, k) ∉ p :: l := by simp [hk, hyk]
          rw [if_neg hk, if_neg hmem]
          split
          · rename_i hy
            subst hy
            have hkp : k ≠ p.2 := fun hkp => hyk (by rw [hkp])
            exact Io7.ready_congr (by simp [hkp]) rfl rfl
          · rfl

/-- All LSIs but one. -/
def others (b : Board) (x n : Nat) : List (Nat × Nat) := b.lsis.filter fun p => p ≠ (x, n)

theorem others_lsis : ∀ p ∈ others b x n, b.io7 p.1 ∧ p.2 < kLsis :=
  fun _ hp => Board.mem_lsis.1 (List.mem_filter.1 hp).1

theorem mem_others {y k : Nat} (hy : b.io7 y) (hk : k < kLsis) :
    (y, k) ∈ others b x n ↔ ¬ (y = x ∧ k = n) := by
  simp only [others, List.mem_filter, Board.mem_lsis, hy, hk, and_self, true_and, ne_eq,
    decide_not, Bool.not_eq_true', decide_eq_false_iff_not, Prod.mk.injEq]

/-- The only LSI whose line is high is not marked: a pop sends nothing. -/
theorem pop_unmarked (hp : b.csr pid) (hr : (m.io7 x).refused n = false)
    (honly : ∀ y k q, m.Waiting b y k q → y = x ∧ k = n) (dsize : Nat) (data : BitVec 64) :
    ((m.step M b (.csrWrite pid RBOX_INTQ dsize data)).2.csr pid).intq =
      (m.csr pid).intq.drop 1 := by
  simp only [Machine.step, hp, if_true]
  generalize hm₁ : ({ m.setCsr pid ((m.csr pid).write M b pid m.world RBOX_INTQ dsize data).1 with
    world := ((m.csr pid).write M b pid m.world RBOX_INTQ dsize data).2.1 } : Machine σ) = m₁
  have hio : m₁.io7 = m.io7 := by
    rw [← hm₁]
    rfl
  have hq : (m₁.csr pid).intq = (m.csr pid).intq.drop 1 := by
    rw [← hm₁]
    change ((m.setCsr pid _).csr pid).intq = _
    rw [Machine.setCsr_csr, if_pos rfl, Csr.write_pop.1]
  have hidle : m₁.resendIids b = m₁ := by
    rw [Machine.resendIids_eq]
    refine Machine.foldl_idle fun p hp => ?_
    obtain ⟨hp1, hp2⟩ := Board.mem_lsis.1 hp
    by_cases hpx : p.1 = x ∧ p.2 = n
    · rw [hpx.1, hpx.2, Machine.deliverAgain, hio, hr]
      rfl
    · refine Machine.deliverAgain_idle hp1 hp2 fun q hw => ?_
      unfold Machine.Waiting at hw
      rw [hio] at hw
      exact absurd (honly p.1 p.2 q hw) hpx
  split
  · rw [hidle, hq]
  · exact hq

theorem marked_of_goesOn (h : m.Run M b) (hg : (m.restored b m').GoesOnAs M b m.dropHeld)
    (hw : m.Waiting b x n pid) : (m'.io7 x).refused n = true := by
  by_contra hr
  rw [Bool.not_eq_true] at hr
  have hrun := hg.run (lowers (others b x n))
  obtain ⟨hc, href, hready⟩ := run_lowers (M := M) (m := m.dropHeld) (others_lsis (b := b) (x := x)
    (n := n))
  obtain ⟨hc', href', hready'⟩ := run_lowers (M := M) (m := m.restored b m') (others_lsis (b := b)
    (x := x) (n := n))
  generalize (m.dropHeld).run M b (lowers (others b x n)) = a at *
  generalize (m.restored b m').run M b (lowers (others b x n)) = a' at *
  have honly : ∀ y k q, a.Waiting b y k q → (y = x ∧ k = n) ∧ m.Waiting b y k q := by
    rintro y k q ⟨hy, hk, hyk, hq⟩
    rw [hready] at hyk
    split at hyk
    · cases hyk
    · rename_i he
      exact ⟨not_not.1 (mt (mem_others hy hk).2 he), hy, hk, hyk, hq⟩
  have honly' : ∀ y k q, a'.Waiting b y k q → y = x ∧ k = n := by
    rintro y k q ⟨hy, hk, hyk, hq⟩
    rw [hready'] at hyk
    split at hyk
    · cases hyk
    · rename_i he
      exact not_not.1 (mt (mem_others hy hk).2 he)
  have hinv : a.Inv b := by
    refine ⟨fun y k q hwait => ?_, fun q => ?_⟩
    · rw [href, hc]
      exact h.inv.dropHeld.waits y k q (honly y k q hwait).2
    · rw [hc]
      exact h.inv.dropHeld.ok q
  have hself : a.Waiting b x n pid := by
    obtain ⟨hx, hn, hxn, hp⟩ := hw
    refine ⟨hx, hn, ?_, hp⟩
    rw [hready, if_neg]
    · exact hxn
    · rw [mem_others hx hn]
      simp
  have hfirst : a.FirstWaiting b x n pid := by
    intro y k hlt hwait
    obtain ⟨rfl, rfl⟩ := (honly y k pid hwait).1
    omega
  have hsent := (hinv.sentByPop (M := M) hself hfirst 64 0).2
  have hnone := pop_unmarked (M := M) hw.2.2.2 (show (a'.io7 x).refused n = false by rw [href']; exact hr)
    honly' 64 0
  have hans := congrArg (fun z => z.queues pid) (hrun.step (.csrWrite pid RBOX_INTQ 64 0)).2
  simp only [Machine.answer] at hans
  rw [hsent, hnone, hc, hc'] at hans
  have hlen := congrArg List.length hans
  simp [Machine.dropHeld, Machine.restored, Machine.restore, Csr.restore, Csr.save, Machine.save] at hlen

/-- A machine restored from the state file of `m` goes on as `m` would without the GIO transactions
that wait for their clock, exactly when the machine restored into holds none and has marked
refused every LSI that waits in `m`. -/
theorem restored_goesOn_iff (hm : b.m21464 = true) (h : m.Run M b) (h' : m'.Run M b) :
    (m.restored b m').GoesOnAs M b m.dropHeld ↔
      (∀ x n pid, m.Waiting b x n pid → (m'.io7 x).refused n = true) ∧
      ∀ pid, b.csr pid → (m'.csr pid).gio.held = .none := by
  constructor
  · intro hg
    exact ⟨fun x n pid hw => marked_of_goesOn h hg hw, fun pid hp => unheld_of_goesOn hm h hg hp⟩
  · rintro ⟨hmark, hheld⟩
    exact (sim_restored hm h h' hmark hheld).goesOn hm

/-- The machine of one block and one IO7 after some operations. -/
def afterOps (ops : List Machine.Op) : Machine Unit :=
  (Machine.reset oneBoard ⟨(), fun _ => false, []⟩).run silent oneBoard ops

theorem afterOps_run (ops : List Machine.Op) : (afterOps ops).Run silent oneBoard :=
  Lib.Reach.foldl (.start ⟨_, rfl⟩) ops fun _ _ _ => trivial

/-- LSI `n` is enabled and raised. -/
def enabledRaised (n : Nat) : List Machine.Op :=
  [.io7Write 0 7 (kCsrOff + LSI_CTL + n * 0x40) 64 CTL_ENABLE, .interrupt n true]

/-- Five LSIs are enabled and raised: four are sent and the last one waits. -/
def fiveRaised : List Machine.Op := (List.range 5).flatMap enabledRaised

/-- A GIO transaction is asked for as well, and is held for its clock. -/
def fiveHeld : List Machine.Op := fiveRaised ++ [.csrWrite 0 GIO_CTL 64 1]

/-- Five others, of which the last one is the same. -/
def othersRaised : List Machine.Op := [9, 8, 7, 6, 4].flatMap enabledRaised

/-- A machine with other IIDs in its queue takes over the saved one's; the LSI that waits is marked
in both. -/
theorem restored_goesOn_other :
    ((afterOps fiveHeld).csr 0).gio.held ≠ .none ∧
      ((afterOps fiveHeld).csr 0).intq ≠ ((afterOps othersRaised).csr 0).intq ∧
      (afterOps fiveHeld).Waiting oneBoard 0 4 0 ∧
      ((afterOps fiveHeld).restored oneBoard (afterOps othersRaised)).GoesOnAs silent oneBoard
        (afterOps fiveHeld).dropHeld := by
  have h := afterOps_run fiveHeld
  have hmarked : ∀ n < kLsis, ((afterOps fiveHeld).io7 0).refused n = true →
      ((afterOps othersRaised).io7 0).refused n = true := by decide +kernel
  refine ⟨by decide +kernel, by decide +kernel, ⟨by decide, by decide, by decide +kernel, by decide⟩,
    (restored_goesOn_iff rfl h (afterOps_run othersRaised)).2 ⟨fun x n pid hw => ?_, ?_⟩⟩
  · obtain rfl : x = 0 := by simpa [oneBoard] using hw.1
    exact hmarked n hw.2.1 (h.inv.waits 0 n pid hw).1
  · intro pid hp
    obtain rfl : pid = 0 := by simpa [oneBoard] using hp
    decide +kernel

/-- The saved machine itself would run a GIO transaction that it holds for its clock, and would
send at the next pop an LSI that a full queue refused. -/
theorem restored_not_as_saved :
    (¬ ∀ m m' : Machine Unit, m.Run silent oneBoard → m'.Run silent oneBoard →
      (∀ pid, oneBoard.csr pid → (m.csr pid).intq = []) →
      (m.restored oneBoard m').GoesOnAs silent oneBoard m) ∧
    ¬ ∀ m m' : Machine Unit, m.Run silent oneBoard → m'.Run silent oneBoard →
      (∀ pid, oneBoard.csr pid → (m.csr pid).gio.held = .none) →
      (m.restored oneBoard m').GoesOnAs silent oneBoard m := by
  constructor
  · intro h
    have hg := h (afterOps [.csrWrite 0 GIO_CTL 64 1]) (afterOps []) (afterOps_run _) (afterOps_run _)
      (by
        intro pid hp
        obtain rfl : pid = 0 := by simpa [oneBoard] using hp
        decide +kernel)
    have hans := congrArg (fun a => a.events.length) (hg.step (.csrWrite 0 GIO_CFG 64 2)).2
    exact absurd hans (by decide +kernel)
  · intro h
    have hg := h (afterOps fiveRaised) (afterOps []) (afterOps_run _) (afterOps_run _)
      (by
        intro pid hp
        obtain rfl : pid = 0 := by simpa [oneBoard] using hp
        decide +kernel)
    have hans := congrArg (fun a => (a.queues 0).length) (hg.step (.csrWrite 0 RBOX_INTQ 64 0)).2
    exact absurd hans (by decide +kernel)

end Alphabox.Marvel
