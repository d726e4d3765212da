import Alphabox.Lib.Table
import Alphabox.Marvel.Proof.Blocks

/-!
# No interrupt is lost

`Inv`: an LSI that waits is about to be delivered, or its answer is about to be noted, or it is
refused by a full queue or by one that was popped since, whose pop has yet to come to it. The
locks make the two halves of a delivery one: while an answer is not noted, no other thread reads
or changes the LSI.
-/

namespace Alphabox.Marvel

variable {τ σ : Type} [DecidableEq τ] {M : Management σ} {b : Board}

/-! ## Tasks -/

namespace Task

/-- The IO7 whose lock a thread holds. -/
def holds : Task → Option Nat
  | .free _ => none
  | .sending x .. | .posted x .. => some x

/-- The thread has yet to come to LSI `n` of IO7 `x`. -/
def Covers (x n : Nat) : Task → Prop
  | .free todo => x ∈ todo
  | .sending y _ ns todo | .posted y _ _ _ ns todo => y = x ∧ n ∈ ns ∨ x ∈ todo

/-- The thread has yet to deliver LSI `n` of IO7 `x`, refused earlier or not. -/
def Fresh (x n : Nat) : Task → Prop
  | .sending y again ns _ | .posted y _ _ again ns _ => again = false ∧ y = x ∧ n ∈ ns
  | .free _ => False

/-- The answer for LSI `n` of IO7 `x` that the thread has yet to note. -/
def answer (x n : Nat) : Task → Option Bool
  | .posted y k taken .. => if y = x ∧ k = n then some taken else none
  | _ => none

theorem Fresh.holds {x n : Nat} {k : Task} (h : k.Fresh x n) : k.holds = some x := by
  cases k with
  | free todo => exact h.elim
  | sending y again ns todo => exact congrArg some h.2.1
  | posted y k taken again ns todo => exact congrArg some h.2.1

theorem holds_of_answer {x n : Nat} {k : Task} {a : Bool} (h : k.answer x n = some a) :
    k.holds = some x := by
  cases k with
  | free todo => cases h
  | sending y again ns todo => cases h
  | posted y k taken again ns todo =>
    simp only [answer] at h
    split at h
    · rename_i hy
      exact congrArg some hy.1
    · cases h

end Task

/-! ## Updates -/

namespace Machine

variable {m : Machine σ} {x y n k pid q : Nat} {io : Io7} {c : Csr}

@[simp] theorem setIo7_io7 : (m.setIo7 x io).io7 y = if y = x then io else m.io7 y := by
  simp [setIo7, Function.update_apply]

@[simp] theorem setIo7_csr : (m.setIo7 x io).csr = m.csr := rfl

@[simp] theorem setCsr_csr : (m.setCsr pid c).csr q = if q = pid then c else m.csr q := by
  simp [setCsr, Function.update_apply]

@[simp] theorem setCsr_io7 : (m.setCsr pid c).io7 = m.io7 := rfl

/-- What `deliver` has done when it has its answer. -/
theorem post_spec {taken : Bool} {m' : Machine σ} (h : m.post b x n = some (taken, m')) :
    ∃ pid, (m.io7 x).ready n = some pid ∧ b.csr pid ∧
      (taken = true ∧ (∃ c, (m.csr pid).postIid b pid (iidOf x n) = some c ∧
          m' = { m.setCsr pid c with world := m.world.note (.iid pid (iidOf x n)) }) ∨
        taken = false ∧ (m.csr pid).Full b ∧ m' = m) := by
  unfold post at h
  split at h
  · cases h
  · rename_i pid hr
    split at h
    · rename_i hp
      refine ⟨pid, hr, hp, ?_⟩
      split at h
      · rename_i c hc
        cases h
        exact .inl ⟨rfl, c, hc, rfl⟩
      · rename_i hc
        cases h
        exact .inr ⟨rfl, Csr.postIid_eq_none.1 hc, rfl⟩
    · cases h

theorem post_none (h : m.post b x n = none) : ¬ m.Waiting b x n pid := by
  rintro ⟨-, -, hr, hp⟩
  unfold post at h
  simp only [hr, hp, if_true] at h
  split at h <;> cases h

end Machine

/-! ## The invariant -/

/-- A block in 21464 mode: the queue has at most four entries, and its bit is set iff it has
any. -/
def Csr.Ok (b : Board) (c : Csr) : Prop :=
  b.m21464 → c.intq.length ≤ kIntQueue21464 ∧ (c.queued = true ↔ c.intq ≠ [])

/-- What becomes of an LSI that waits for `pid`. -/
def Pending (b : Board) (s : Sys τ σ) (x n pid : Nat) : Prop :=
  (∃ t, (s.task t).Fresh x n) ∨ (∃ t, (s.task t).answer x n = some true) ∨
    ((s.m.io7 x).refused n = true ∨ ∃ t, (s.task t).answer x n = some false) ∧
      ((s.m.csr pid).Full b ∨ ∃ t, (s.task t).Covers x n)

def Locks (s : Sys τ σ) : Prop := ∀ x t, s.lock x = some t ↔ (s.task t).holds = some x

/-- The invariant (module doc). -/
structure Inv (b : Board) (s : Sys τ σ) : Prop where
  locks : Locks s
  pending : ∀ x n pid, s.m.Waiting b x n pid → Pending b s x n pid
  ok : ∀ pid, (s.m.csr pid).Ok b

variable {s s' : Sys τ σ} {t : τ} {k : Task} {x n pid : Nat}

omit [DecidableEq τ] in
theorem Locks.holder (h : Locks s) {t' : τ} (ht : (s.task t).holds = some x)
    (ht' : (s.task t').holds = some x) : t' = t :=
  Option.some.inj (((h x t').2 ht').symm.trans ((h x t).2 ht))

theorem Locks.move (h : Locks s) (hl : s'.lock = s.lock) (ht : s'.task = Function.update s.task t k)
    (hk : k.holds = (s.task t).holds) : Locks s' := by
  intro y u
  rw [hl, ht, h y u]
  by_cases hu : u = t
  · subst hu
    rw [Function.update_self, hk]
  · rw [Function.update_of_ne hu]

theorem Locks.take (h : Locks s) (hx : s.lock x = none) (ht : (s.task t).holds = none)
    (hk : k.holds = some x) : Locks (s.enter t x k) := by
  intro y u
  simp only [Sys.enter, Sys.setTask, Function.update_apply]
  by_cases hu : u = t
  · subst hu
    by_cases hy : y = x
    · subst hy
      simp [hk]
    · have hn : s.lock y ≠ some u := fun hl => by simp [(h y u).1 hl] at ht
      simp [hy, hn, hk, Ne.symm hy]
  · by_cases hy : y = x
    · subst hy
      have hn : (s.task u).holds ≠ some y := fun hl => by simp [(h y u).2 hl] at hx
      simp [hu, Ne.symm hu, hn]
    · simp [hu, hy, h y u]

theorem Locks.release (h : Locks s) (ht : (s.task t).holds = some x) (hk : k.holds = none) :
    Locks { s.setTask t k with lock := Function.update s.lock x none } := by
  intro y u
  simp only [Sys.setTask, Function.update_apply]
  by_cases hu : u = t
  · subst hu
    by_cases hy : y = x
    · simp [hy, hk]
    · have hn : s.lock y ≠ some u := fun hl => by
        rw [(h y u).1 hl] at ht
        exact hy (Option.some.inj ht)
      simp [hy, hn, hk]
  · by_cases hy : y = x
    · subst hy
      have hn : (s.task u).holds ≠ some y := fun hl => hu (h.holder ht hl)
      simp [hu, hn]
    · simp [hu, hy, h y u]

/-- One thread moves on, and loses sight of no LSI. -/
theorem Pending.move (h : Pending b s x n pid) (ht : s'.task = Function.update s.task t k)
    (hr : (s.m.io7 x).refused n = true → (s'.m.io7 x).refused n = true)
    (hfull : (s.m.csr pid).Full b → (s'.m.csr pid).Full b ∨ k.Covers x n)
    (hf : (s.task t).Fresh x n → k.Fresh x n)
    (ha : ∀ a, (s.task t).answer x n = some a → k.answer x n = some a)
    (hc : (s.task t).Covers x n → k.Covers x n) : Pending b s' x n pid := by
  unfold Pending
  rw [ht]
  rcases h with h | h | ⟨h1, h2⟩
  · exact .inl (Lib.exists_update hf h)
  · exact .inr (.inl (Lib.exists_update (P := fun k : Task => k.answer x n = some true) (ha true) h))
  · refine .inr (.inr ⟨?_, ?_⟩)
    · rcases h1 with h1 | h1
      · exact .inl (hr h1)
      · exact .inr (Lib.exists_update (P := fun k : Task => k.answer x n = some false) (ha false) h1)
    · rcases h2 with h2 | h2
      · rcases hfull h2 with h2 | h2
        · exact .inl h2
        · exact .inr ⟨t, by rwa [Function.update_self]⟩
      · exact .inr (Lib.exists_update hc h2)

/-! ## Steps of a thread -/

/-- A thread goes on, the machine and the locks as they are. -/
theorem Inv.idle (h : Inv b s) (hk : k.holds = (s.task t).holds)
    (hm : ∀ x n pid, s.m.Waiting b x n pid → Pending b (s.setTask t k) x n pid) :
    Inv b (s.setTask t k) :=
  ⟨h.locks.move rfl rfl hk, hm, h.ok⟩

theorem inv_take (h : Inv b s) {todo : List Nat} (ht : s.task t = .free (x :: todo))
    (hx : s.lock x = none) : Inv b (s.enter t x (.sending x true (List.range kLsis) todo)) := by
  refine ⟨h.locks.take hx (by rw [ht]; rfl) rfl, fun y n pid hw => ?_, h.ok⟩
  refine (h.pending y n pid hw).move rfl id .inl ?_ ?_ ?_
  · rw [ht]
    exact False.elim
  · rw [ht]
    intro a ha
    cases ha
  · rw [ht]
    intro hc
    rcases List.mem_cons.1 hc with rfl | hc
    · exact .inl ⟨rfl, List.mem_range.2 hw.2.1⟩
    · exact .inr hc

theorem inv_release (h : Inv b s) {again : Bool} {todo : List Nat}
    (ht : s.task t = .sending x again [] todo) :
    Inv b { s.setTask t (.free todo) with lock := Function.update s.lock x none } := by
  refine ⟨h.locks.release (by rw [ht]; rfl) rfl, fun y n pid hw => ?_, h.ok⟩
  refine (h.pending y n pid hw).move rfl id .inl ?_ ?_ ?_
  · rw [ht]
    intro hf
    cases hf.2.2
  · rw [ht]
    intro a ha
    cases ha
  · rw [ht]
    intro hc
    rcases hc with hc | hc
    · cases hc.2
    · exact hc

theorem inv_skip (h : Inv b s) {again : Bool} {ns todo : List Nat}
    (ht : s.task t = .sending x again (n :: ns) todo) (hn : ∀ pid, ¬ s.m.Waiting b x n pid) :
    Inv b (s.setTask t (.sending x again ns todo)) := by
  refine h.idle (by rw [ht]; rfl) fun y k pid hw => ?_
  have hne : ¬ (x = y ∧ k = n) := by
    rintro ⟨rfl, rfl⟩
    exact hn pid hw
  refine (h.pending y k pid hw).move rfl id .inl ?_ ?_ ?_
  · rw [ht]
    rintro ⟨ha, hx, hk⟩
    exact ⟨ha, hx, (List.mem_cons.1 hk).resolve_left fun hk => hne ⟨hx, hk⟩⟩
  · rw [ht]
    intro a ha
    cases ha
  · rw [ht]
    rintro (⟨hx, hk⟩ | hc)
    · exact .inl ⟨hx, (List.mem_cons.1 hk).resolve_left fun hk => hne ⟨hx, hk⟩⟩
    · exact .inr hc

omit [DecidableEq τ] in
/-- A resend passes over what is not marked refused: it does not wait. -/
theorem not_waiting_of_unmarked (h : Inv b s) {ns todo : List Nat}
    (ht : s.task t = .sending x true ns todo) (hr : (s.m.io7 x).refused n = false) :
    ¬ s.m.Waiting b x n pid := by
  intro hw
  have hx : (s.task t).holds = some x := by rw [ht]; rfl
  have hno : ∀ u a, (s.task u).answer x n ≠ some a := by
    intro u a ha
    have hu := h.locks.holder hx (Task.holds_of_answer ha)
    rw [hu, ht] at ha
    cases ha
  rcases h.pending x n pid hw with ⟨u, hf⟩ | ⟨u, ha⟩ | ⟨hr' | ⟨u, ha⟩, -⟩
  · have hu := h.locks.holder hx hf.holds
    rw [hu, ht] at hf
    cases hf.1
  · exact hno u _ ha
  · rw [hr] at hr'
    cases hr'
  · exact hno u _ ha

theorem ok_post {c c' : Csr} {iid : BitVec 64} (hp : c.postIid b pid iid = some c') :
    c'.Ok b := by
  intro hm
  obtain ⟨hf, hq, hr⟩ := Csr.postIid_spec hp
  have hlen : c.intq.length < kIntQueue21464 := by
    by_contra hlen
    exact hf ⟨hm, by omega⟩
  refine ⟨?_, ?_⟩
  · rw [hq, List.length_append, List.length_singleton]
    omega
  · simp [Csr.queued, hr, hq, Csr.queueBit_12]

theorem full_post {c c' : Csr} {iid : BitVec 64} (hp : c.postIid b pid iid = some c')
    (h : c.Full b) : c'.Full b :=
  absurd h (Csr.postIid_spec hp).1

theorem inv_post (h : Inv b s) {again taken : Bool} {ns todo : List Nat} {m : Machine σ}
    (ht : s.task t = .sending x again (n :: ns) todo) (hp : s.m.post b x n = some (taken, m)) :
    Inv b ({ s with m }.setTask t (.posted x n taken again ns todo)) := by
  obtain ⟨pid, hr, -, hp⟩ := Machine.post_spec hp
  have hio : m.io7 = s.m.io7 := by
    rcases hp with ⟨-, c, -, rfl⟩ | ⟨-, -, rfl⟩
    · rfl
    · rfl
  have hfull : ∀ q, (s.m.csr q).Full b → (m.csr q).Full b := by
    intro q hq
    rcases hp with ⟨-, c, hc, rfl⟩ | ⟨-, -, rfl⟩
    · by_cases hqp : q = pid
      · subst hqp
        simpa using full_post hc hq
      · simpa [hqp] using hq
    · exact hq
  refine ⟨h.locks.move rfl rfl (by rw [ht]; rfl), fun y k q hw => ?_, fun q => ?_⟩
  · have hw' : s.m.Waiting b y k q := by
      obtain ⟨h1, h2, h3, h4⟩ := hw
      exact ⟨h1, h2, by rwa [← hio], h4⟩
    by_cases hyk : x = y ∧ n = k
    · obtain ⟨rfl, rfl⟩ := hyk
      have hq : q = pid := Option.some.inj (hw'.2.2.1.symm.trans hr)
      subst hq
      have ha : ((Function.update s.task t (.posted x n taken again ns todo)) t).answer x n =
          some taken := by
        rw [Function.update_self]
        exact if_pos ⟨rfl, rfl⟩
      rcases hp with ⟨rfl, -⟩ | ⟨rfl, hf, -⟩
      · exact .inr (.inl ⟨t, ha⟩)
      · exact .inr (.inr ⟨.inr ⟨t, ha⟩, .inl (hfull q hf)⟩)
    · refine (h.pending y k q hw').move rfl (by simp [Sys.setTask, hio]) (fun hf => .inl (hfull q hf))
        ?_ ?_ ?_
      · rw [ht]
        rintro ⟨ha, hx, hk⟩
        exact ⟨ha, hx, (List.mem_cons.1 hk).resolve_left fun hk => hyk ⟨hx, hk.symm⟩⟩
      · rw [ht]
        intro a ha
        cases ha
      · rw [ht]
        rintro (⟨hx, hk⟩ | hc)
        · exact .inl ⟨hx, (List.mem_cons.1 hk).resolve_left fun hk => hyk ⟨hx, hk.symm⟩⟩
        · exact .inr hc
  · rcases hp with ⟨-, c, hc, rfl⟩ | ⟨-, -, rfl⟩
    · change ((s.m.setCsr pid c).csr q).Ok b
      rw [Machine.setCsr_csr]
      split
      · exact ok_post hc
      · exact h.ok q
    · exact h.ok q

/-- Only the LSI whose answer it is changes. -/
theorem Io7.answered_ne {io : Io7} {taken : Bool} {k : Nat} (h : k ≠ n) :
    (io.answered n taken).ready k = io.ready k ∧
      (io.answered n taken).refused k = io.refused k ∧
      (io.answered n taken).inService k = io.inService k := by
  unfold answered
  split
  · exact ⟨ready_congr rfl (by simp [h]) rfl, by simp [h], by simp [h]⟩
  · exact ⟨ready_congr rfl rfl rfl, by simp [h], rfl⟩

theorem Io7.ready_answered {io : Io7} : (io.answered n true).ready n = none := by
  simp [answered, ready]

theorem inv_answered (h : Inv b s) {again taken : Bool} {ns todo : List Nat}
    (ht : s.task t = .posted x n taken again ns todo) :
    Inv b ({ s with m := s.m.answered x n taken }.setTask t (.sending x again ns todo)) := by
  refine ⟨h.locks.move rfl rfl (by rw [ht]; rfl), fun y k pid hw => ?_, h.ok⟩
  obtain ⟨hy, hk, hr, hp⟩ := hw
  change ((s.m.setIo7 x _).io7 y).ready k = some pid at hr
  rw [Machine.setIo7_io7] at hr
  have hfresh : (s.task t).Fresh y k → (Task.sending x again ns todo).Fresh y k := by
    rw [ht]
    exact id
  have hcov : (s.task t).Covers y k → (Task.sending x again ns todo).Covers y k := by
    rw [ht]
    exact id
  by_cases hyk : y = x ∧ k = n
  · obtain ⟨rfl, rfl⟩ := hyk
    rw [if_pos rfl] at hr
    cases taken with
    | true =>
      rw [Io7.ready_answered] at hr
      cases hr
    | false =>
      have hr' : (s.m.io7 y).ready k = some pid := hr
      -- the refusal is noted: what covered the LSI before still does
      rcases h.pending y k pid ⟨hy, hk, hr', hp⟩ with hf | ⟨u, ha⟩ | ⟨-, hc⟩
      · exact .inl (Lib.exists_update hfresh hf)
      · have hu := h.locks.holder (t := t) (by rw [ht]; rfl) (Task.holds_of_answer ha)
        rw [hu, ht] at ha
        simp [Task.answer] at ha
      · refine .inr (.inr ⟨.inl ?_, hc.imp id (Lib.exists_update hcov)⟩)
        simp [Sys.setTask, Machine.answered, Io7.answered]
  · have hio : ((s.m.answered x n taken).io7 y).ready k = (s.m.io7 y).ready k ∧
        ((s.m.answered x n taken).io7 y).refused k = (s.m.io7 y).refused k := by
      unfold Machine.answered
      rw [Machine.setIo7_io7]
      split
      · rename_i hyx
        have hkn : k ≠ n := fun hkn => hyk ⟨hyx, hkn⟩
        rw [hyx]
        exact ⟨(Io7.answered_ne hkn).1, (Io7.answered_ne hkn).2.1⟩
      · exact ⟨rfl, rfl⟩
    have hw : s.m.Waiting b y k pid := ⟨hy, hk, by rw [← hio.1]; simpa [Machine.answered] using hr, hp⟩
    refine (h.pending y k pid hw).move rfl (fun hr => hio.2.trans hr) .inl hfresh ?_ hcov
    rw [ht]
    intro a ha
    rw [Task.answer, if_neg fun he => hyk ⟨he.1.symm, he.2.symm⟩] at ha
    cases ha

theorem inv_advance (h : Inv b s) : Inv b (s.advance b t) := by
  unfold Sys.advance
  split
  · exact h
  · rename_i x todo ht
    split
    · rename_i hx
      exact inv_take h ht hx
    · exact h
  · rename_i ht
    exact inv_release h ht
  · rename_i x again n ns todo ht
    split
    · rename_i hskip
      simp only [Bool.and_eq_true, Bool.not_eq_true'] at hskip
      obtain ⟨rfl, hr⟩ := hskip
      exact inv_skip h ht fun pid => not_waiting_of_unmarked h ht hr
    · split
      · rename_i hp
        exact inv_skip h ht fun pid => Machine.post_none hp
      · rename_i hp
        exact inv_post h ht hp
  · rename_i ht
    exact inv_answered h ht

/-! ## Beginnings of operations -/

/-- A thread that has nothing to do covers nothing, and may do anything. -/
theorem Pending.begin (h : Pending b s x n pid) (ht : s.task t = .free [])
    (hs : s'.task = Function.update s.task t k)
    (hr : (s.m.io7 x).refused n = true → (s'.m.io7 x).refused n = true)
    (hfull : (s.m.csr pid).Full b → (s'.m.csr pid).Full b ∨ k.Covers x n) :
    Pending b s' x n pid := by
  refine h.move hs hr hfull ?_ ?_ ?_
  · rw [ht]
    exact False.elim
  · rw [ht]
    intro a ha
    cases ha
  · rw [ht]
    intro hc
    cases hc

theorem inv_io7Op (h : Inv b s) (ht : s.task t = .free []) (hx : s.lock x = none)
    {r : Io7 × List Nat} (hr : Io7.Touches (s.m.io7 x) r) : Inv b (s.io7Op t x r) := by
  have hl : Locks { s with m := s.m.setIo7 x r.1 } := h.locks
  refine ⟨hl.take hx (by rw [ht]; rfl) rfl, fun y n pid hw => ?_, h.ok⟩
  obtain ⟨hy, hn, hready, hp⟩ := hw
  change ((s.m.setIo7 x r.1).io7 y).ready n = some pid at hready
  rw [Machine.setIo7_io7] at hready
  by_cases hyx : y = x
  · subst hyx
    rw [if_pos rfl] at hready
    by_cases hnr : n ∈ r.2
    · exact .inl ⟨t, by simp [Sys.io7Op, Sys.enter, Sys.setTask, Task.Fresh, hnr]⟩
    · have hready' : (s.m.io7 y).ready n = some pid := by
        rcases hr.ready n hn hnr with he | he
        · rw [← he, hready]
        · rw [he] at hready
          cases hready
      refine (h.pending y n pid ⟨hy, hn, hready', hp⟩).begin ht rfl (fun hf => ?_) .inl
      simpa [Sys.io7Op, Sys.enter, Sys.setTask, hr.refused] using hf
  · rw [if_neg hyx] at hready
    refine (h.pending y n pid ⟨hy, hn, hready, hp⟩).begin ht rfl (fun hf => ?_) .inl
    simpa [Sys.io7Op, Sys.enter, Sys.setTask, hyx] using hf

/-- A block is read or written; a pop that makes room leaves every IO7 to call. -/
theorem inv_csr (h : Inv b s) (ht : s.task t = .free []) {c : Csr} {w : World σ}
    (popped : List (BitVec 64)) (todo : List Nat) (hok : (s.m.csr x).Ok b → c.Ok b)
    (hfull : (s.m.csr x).Full b → c.Full b ∨ todo = b.io7s) :
    Inv b ({ s with m := { s.m.setCsr x c with world := w }, popped }.setTask t (.free todo)) := by
  refine ⟨?_, fun y n pid hw => ?_, fun pid => ?_⟩
  · exact h.locks.move rfl rfl (by rw [ht]; rfl)
  · have hy : y ∈ b.io7s :=
      List.mem_filter.2 ⟨List.mem_range.2 (b.io7_lt y hw.1), hw.1⟩
    refine (h.pending y n pid hw).begin ht rfl id fun hf => ?_
    by_cases hp : pid = x
    · subst hp
      rcases hfull hf with hf | rfl
      · exact .inl (by simpa [Sys.setTask, Machine.setCsr] using hf)
      · exact .inr hy
    · exact .inl (by simpa [Sys.setTask, Machine.setCsr, hp] using hf)
  · change ((s.m.setCsr x c).csr pid).Ok b
    rw [Machine.setCsr_csr]
    split
    · exact hok (h.ok x)
    · exact h.ok pid

theorem inv_csr_read (h : Inv b s) (ht : s.task t = .free []) {c : Csr} {w : World σ}
    (hok : (s.m.csr x).Ok b → c.Ok b) (hfull : (s.m.csr x).Full b → c.Full b) :
    Inv b { s with m := { s.m.setCsr x c with world := w } } := by
  have hi := inv_csr (w := w) h ht s.popped [] hok fun hf => .inl (hfull hf)
  rw [Sys.setTask, ← ht, Function.update_eq_self] at hi
  exact hi

namespace Csr

variable {off dsize : Nat} {c : Csr} {w : World σ} {data : BitVec 64}

theorem Ok.write (h : c.Ok b) : (c.write M b pid w off dsize data).1.Ok b := by
  intro hm
  obtain ⟨hlen, hq⟩ := h hm
  by_cases h1 : off = RBOX_INTQ
  · subst h1
    rw [write_pop.1, write_pop_queued hm]
    refine ⟨by simp; omega, ?_⟩
    by_cases he : (c.intq.drop 1).isEmpty
    · simp_all
    · have hne : c.intq ≠ [] := by
        rintro hne
        simp [hne] at he
      simp_all
  · by_cases h2 : off = RBOX_INTA
    · subst h2
      rw [(write_add hm).1, (write_add hm).2.1]
      by_cases hf : c.Full b
      · simp only [hf, if_true]
        exact ⟨hlen, hq⟩
      · have hlt : c.intq.length < kIntQueue21464 := by
          by_contra hlt
          exact hf ⟨hm, by omega⟩
        simp only [hf, if_false, List.length_append, List.length_singleton]
        exact ⟨by omega, by simp⟩
    · rw [(write_other h1 fun _ => h2).1, (write_other h1 fun _ => h2).2.2 hm]
      exact ⟨hlen, hq⟩

theorem Ok.read (h : c.Ok b) : (c.read M b pid w off dsize).2.1.Ok b := by
  unfold Ok
  rw [read_intq, queued_congr read_regs]
  exact h

theorem Full.read (h : c.Full b) : (c.read M b pid w off dsize).2.1.Full b := by
  unfold Full
  rw [read_intq]
  exact h

theorem Full.write (h : c.Full b) : (c.write M b pid w off dsize data).1.Full b ∨
    (if (c.write M b pid w off dsize data).2.2 then b.io7s else []) = b.io7s := by
  by_cases h1 : off = RBOX_INTQ
  · subst h1
    have hne : c.intq ≠ [] := by
      rintro hne
      have := h.2
      simp [hne, kIntQueue21464] at this
    exact .inr (by simp [write_pop.2, h.1, hne])
  · left
    by_cases h2 : off = RBOX_INTA
    · subst h2
      unfold Full
      rw [(write_add h.1).1, if_pos h]
      exact h
    · unfold Full
      rw [(write_other h1 fun _ => h2).1]
      exact h

end Csr

omit [DecidableEq τ] in
theorem Inv.popped (h : Inv b s) (popped : List (BitVec 64)) : Inv b { s with popped } :=
  ⟨h.locks, h.pending, h.ok⟩

theorem inv_begin (h : Inv b s) (ht : s.task t = .free []) {op : Machine.Op} :
    Inv b (s.begin M b t op) := by
  cases op with
  | interrupt number assert =>
    simp only [Sys.begin]
    split
    · rename_i hx
      exact inv_io7Op h ht hx.2 Io7.lsi_touches
    · exact h
  | io7Write x port off dsize data =>
    simp only [Sys.begin]
    split
    · rename_i hx
      have hi := h.popped (if isEoi port off then s.popped.erase data else s.popped)
      exact inv_io7Op hi ht hx.2 Io7.write_touches
    · exact h
  | csrWrite pid off dsize data =>
    simp only [Sys.begin]
    split
    · exact inv_csr h ht _ _ Csr.Ok.write Csr.Full.write
    · exact h
  | csrRead pid off dsize =>
    simp only [Sys.begin]
    split
    · exact inv_csr_read h ht Csr.Ok.read Csr.Full.read
    · exact h

theorem inv_step (h : Inv b s) {a : Sys.Act τ} : Inv b (s.step M b a) := by
  cases a with
  | begin t op =>
    simp only [Sys.step]
    split
    · rename_i ht
      exact inv_begin h ht
    · exact h
  | advance t => exact inv_advance h

omit [DecidableEq τ] in
theorem inv_init {w : World σ} : Inv b (Sys.init b w : Sys τ σ) := by
  refine ⟨fun x t => ?_, fun x n pid hw => ?_, fun pid _ => ?_⟩
  · simp [Sys.init, Task.holds]
  · have hr := hw.2.2.1
    simp [Sys.init, Machine.reset, Io7.reset, Io7.ready] at hr
  · simp [Sys.init, Machine.reset, Csr.reset, Csr.queued, Csr.reg]

theorem inv_run {ok : Sys τ σ → Sys.Act τ → Prop} (h : SysRun M b ok s) : Inv b s := by
  refine Lib.Reach.inv ?_ ?_ h
  · rintro s ⟨w, rfl⟩
    exact inv_init
  · intro s a hi _
    exact inv_step hi

end Alphabox.Marvel
