import Mathlib.Logic.Relation
import Alphabox.Marvel.Proof.Once

/-!
# An operation run to its end

A thread that runs alone does what `Machine.step` says (`goes_step`), so the machines of `Run` are
those of the quiet states of some run of the threads (`Machine.Run.inv`). A pop of a full queue then sends
the first LSI that waits for it, and refuses the others again (`Machine.Inv.sentByPop`).
-/

namespace Alphabox.Marvel

variable {τ σ : Type} [DecidableEq τ] {M : Management σ} {b : Board} {s s' : Sys τ σ} {t : τ}
  {k : Task} {x n pid : Nat}

/-- Thread `t` takes some steps while all others wait. -/
def Goes (M : Management σ) (b : Board) (t : τ) : Sys τ σ → Sys τ σ → Prop :=
  Relation.ReflTransGen fun s s' => s' = s.step M b (.advance t)

theorem Goes.trans {s'' : Sys τ σ} (h : Goes M b t s s') (h' : Goes M b t s' s'') :
    Goes M b t s s'' :=
  Relation.ReflTransGen.trans h h'

theorem goes_one (h : s.advance b t = s') : Goes M b t s s' := .single h.symm

/-- What a thread does with one LSI, refused earlier or not. -/
def Machine.deliverIf (b : Board) (again : Bool) (x : Nat) (m : Machine σ) (n : Nat) : Machine σ :=
  if again then m.deliverAgain b x n else m.deliver b x n

theorem Machine.foldl_deliverAgain (m : Machine σ) :
    (List.range kLsis).foldl (Machine.deliverIf b true x) m = m.resend b x := by
  have hd : (Machine.deliverIf b true x : Machine σ → Nat → Machine σ) =
      fun m n => m.deliverAgain b x n := by
    funext m n
    simp [deliverIf]
  rw [hd, resend]

theorem goes_one_lsi {again : Bool} {ns todo : List Nat}
    (ht : s.task t = .sending x again (n :: ns) todo) :
    Goes M b t s ({ s with m := s.m.deliverIf b again x n }.setTask t (.sending x again ns todo)) := by
  by_cases hskip : (again && !(s.m.io7 x).refused n) = true
  · refine goes_one ?_
    simp only [Bool.and_eq_true, Bool.not_eq_true'] at hskip
    simp [Sys.advance, ht, Machine.deliverIf, Machine.deliverAgain, hskip]
  · have hd : s.m.deliverIf b again x n = s.m.deliver b x n := by
      simp only [Bool.and_eq_true, Bool.not_eq_true', not_and, Bool.not_eq_false] at hskip
      cases again with
      | true => simp [Machine.deliverIf, Machine.deliverAgain, hskip]
      | false => rfl
    rw [hd]
    cases hp : s.m.post b x n with
    | none =>
      refine goes_one ?_
      simp [Sys.advance, ht, hskip, hp, Machine.deliver]
    | some r =>
      obtain ⟨taken, m⟩ := r
      have h1 : s.advance b t = { s with m }.setTask t (.posted x n taken again ns todo) := by
        simp [Sys.advance, ht, hskip, hp]
      refine (goes_one h1).trans (goes_one ?_)
      simp [Sys.advance, Sys.setTask, Machine.deliver, hp]

theorem goes_lsis {again : Bool} {todo : List Nat} (ns : List Nat)
    (ht : s.task t = .sending x again ns todo) :
    Goes M b t s ({ s with m := ns.foldl (Machine.deliverIf b again x) s.m }.setTask t
      (.sending x again [] todo)) := by
  induction ns generalizing s with
  | nil =>
    have : s = { s with m := s.m }.setTask t (.sending x again [] todo) := by
      simp [Sys.setTask, ← ht]
    rw [List.foldl_nil, ← this]
    exact .refl
  | cons n ns ih =>
    have hrest := ih (s := { s with m := s.m.deliverIf b again x n }.setTask t
      (.sending x again ns todo)) (by simp [Sys.setTask])
    refine (goes_one_lsi ht).trans ?_
    simpa [Sys.setTask] using hrest

/-- From inside the lock of IO7 `x` to its release. -/
theorem goes_release {again : Bool} {todo : List Nat} (ns : List Nat)
    (ht : s.task t = .sending x again ns todo) :
    Goes M b t s { s with
      m := ns.foldl (Machine.deliverIf b again x) s.m
      task := Function.update s.task t (.free todo)
      lock := Function.update s.lock x none } := by
  refine (goes_lsis ns ht).trans (goes_one ?_)
  simp [Sys.advance, Sys.setTask]

theorem goes_resend (todo : List Nat) (ht : s.task t = .free todo) (hl : ∀ x, s.lock x = none) :
    Goes M b t s { s with
      m := todo.foldl (fun m x => m.resend b x) s.m
      task := Function.update s.task t (.free []) } := by
  induction todo generalizing s with
  | nil =>
    rw [← ht, Function.update_eq_self]
    exact .refl
  | cons x todo ih =>
    have h1 : s.advance b t = s.enter t x (.sending x true (List.range kLsis) todo) := by
      simp [Sys.advance, ht, hl]
    have ht' : (s.enter t x (.sending x true (List.range kLsis) todo)).task t =
        .sending x true (List.range kLsis) todo := by simp [Sys.enter, Sys.setTask]
    have h2 := goes_release (M := M) (b := b) (List.range kLsis) ht'
    have hlock : Function.update s.lock x none = s.lock := by rw [← hl x, Function.update_eq_self]
    simp only [Sys.enter, Sys.setTask, Function.update_idem, hlock, Machine.foldl_deliverAgain] at h2
    refine (goes_one h1).trans (h2.trans ?_)
    have h3 := ih (s := { s with
      m := s.m.resend b x
      task := Function.update s.task t (.free todo) }) (by simp) hl
    simpa using h3

theorem goes_io7Op (ht : s.task t = .free []) (hx : s.lock x = none) (r : Io7 × List Nat) :
    Goes M b t (s.io7Op t x r) { s with m := s.m.io7Op b x r } := by
  have ht' : (s.io7Op t x r).task t = .sending x false r.2 [] := by
    simp [Sys.io7Op, Sys.enter, Sys.setTask]
  have hg := goes_release (M := M) (b := b) r.2 ht'
  have hlock : Function.update s.lock x none = s.lock := by rw [← hx, Function.update_eq_self]
  have htask : Function.update s.task t (.free []) = s.task := by rw [← ht, Function.update_eq_self]
  simp only [Sys.io7Op, Sys.enter, Sys.setTask, Function.update_idem, hlock, htask] at hg
  exact hg

/-- A thread alone runs an operation to its end. -/
theorem goes_step (hq : s.Quiet) (hl : ∀ x, s.lock x = none) (t : τ) (op : Machine.Op) :
    ∃ popped, Goes M b t (s.step M b (.begin t op)) { s with m := (s.m.step M b op).2, popped } := by
  have ht := hq t
  simp only [Sys.step, ht, if_true]
  cases op with
  | interrupt number assert =>
    refine ⟨s.popped, ?_⟩
    simp only [Sys.begin, Machine.step, hl, and_true]
    split
    · exact goes_io7Op ht (hl _) _
    · exact .refl
  | io7Write x port off dsize data =>
    simp only [Sys.begin, Machine.step, hl, and_true]
    split
    · refine ⟨if isEoi port off then s.popped.erase data else s.popped, ?_⟩
      exact goes_io7Op (s := { s with popped := if isEoi port off then s.popped.erase data
        else s.popped }) ht (hl x) _
    · exact ⟨s.popped, .refl⟩
  | csrWrite pid off dsize data =>
    simp only [Sys.begin, Machine.step]
    split
    · refine ⟨if off = RBOX_INTQ then (s.m.csr pid).intq.take 1 ++ s.popped else s.popped, ?_⟩
      generalize (s.m.csr pid).write M b pid s.m.world off dsize data = r
      have hg := goes_resend (M := M) (b := b) (s := { s with
        m := { s.m.setCsr pid r.1 with world := r.2.1 }
        popped := if off = RBOX_INTQ then (s.m.csr pid).intq.take 1 ++ s.popped else s.popped
        task := Function.update s.task t (.free (if r.2.2 then b.io7s else [])) }) (t := t)
        (if r.2.2 then b.io7s else []) (by simp) hl
      have htask : Function.update s.task t (.free []) = s.task := by
        rw [← ht, Function.update_eq_self]
      simp only [Function.update_idem, htask] at hg
      cases hr : r.2.2 with
      | true => simpa [hr, Sys.setTask, Machine.resendIids] using hg
      | false => simpa [hr, Sys.setTask] using hg
    · exact ⟨s.popped, .refl⟩
  | csrRead pid off dsize =>
    refine ⟨s.popped, ?_⟩
    simp only [Sys.begin, Machine.step]
    split <;> exact .refl

/-! ## Machines -/

namespace Machine

variable {m : Machine σ} {op : Op}

/-- A machine in which no operation is in progress. -/
structure Inv (b : Board) (m : Machine σ) : Prop where
  waits : ∀ x n pid, m.Waiting b x n pid → (m.io7 x).refused n = true ∧ (m.csr pid).Full b
  ok : ∀ pid, (m.csr pid).Ok b

end Machine

omit [DecidableEq τ] in
theorem Inv.quiet (h : Inv b s) (hq : s.Quiet) : s.m.Inv b := by
  refine ⟨fun x n pid hw => ?_, h.ok⟩
  rcases h.pending x n pid hw with ⟨t, ht⟩ | ⟨t, ht⟩ | ⟨hr | ⟨t, ht⟩, hf | ⟨u, hu⟩⟩
  · rw [hq t] at ht
    exact ht.elim
  · rw [hq t] at ht
    cases ht
  · exact ⟨hr, hf⟩
  · rw [hq u] at hu
    cases hu
  · rw [hq t] at ht
    cases ht
  · rw [hq t] at ht
    cases ht

omit [DecidableEq τ] in
theorem Locks.quiet (h : Locks s) (hq : s.Quiet) (x : Nat) : s.lock x = none := by
  cases hx : s.lock x with
  | none => rfl
  | some t =>
    have ht := (h x t).1 hx
    rw [hq t] at ht
    cases ht

theorem SysRun.goes (h : SysRun M b (fun _ _ => True) s) (hg : Goes M b t s s') :
    SysRun M b (fun _ _ => True) s' := by
  induction hg with
  | refl => exact h
  | tail _ hs ih =>
    rw [hs]
    exact Lib.Reach.next ih trivial

/-- The threads of a run of the machine: one that does it all. -/
theorem Machine.Run.sys {m : Machine σ} (h : m.Run M b) :
    ∃ s : Sys Unit σ, SysRun M b (fun _ _ => True) s ∧ s.Quiet ∧ s.m = m := by
  refine Lib.Reach.inv (P := fun m => ∃ s : Sys Unit σ, SysRun M b (fun _ _ => True) s ∧ s.Quiet ∧
    s.m = m) ?_ ?_ h
  · rintro m ⟨w, rfl⟩
    exact ⟨.init b w, .start ⟨w, rfl⟩, fun _ => rfl, rfl⟩
  · rintro m op ⟨s, hs, hq, rfl⟩ -
    obtain ⟨popped, hg⟩ := goes_step hq ((inv_run hs).locks.quiet hq) () op
    exact ⟨_, SysRun.goes (Lib.Reach.next hs trivial) hg, hq, rfl⟩

theorem Machine.Run.inv {m : Machine σ} (h : m.Run M b) : m.Inv b := by
  obtain ⟨s, hs, hq, rfl⟩ := h.sys
  exact (inv_run hs).quiet hq

/-! ## The next pop -/

/-- The LSIs in the order of `resend_iids`. -/
def Board.lsis (b : Board) : List (Nat × Nat) :=
  b.io7s.flatMap fun x => (List.range kLsis).map fun n => (x, n)

theorem Board.mem_lsis {p : Nat × Nat} : p ∈ b.lsis ↔ b.io7 p.1 ∧ p.2 < kLsis := by
  obtain ⟨x, n⟩ := p
  simp only [lsis, io7s, List.mem_flatMap, List.mem_filter, List.mem_map, List.mem_range,
    Prod.mk.injEq]
  constructor
  · rintro ⟨y, ⟨-, hy⟩, k, hk, rfl, rfl⟩
    exact ⟨hy, hk⟩
  · rintro ⟨hx, hn⟩
    exact ⟨x, ⟨b.io7_lt x hx, hx⟩, n, hn, rfl, rfl⟩

theorem Board.lsis_sorted : b.lsis.Pairwise fun p q => p.1 < q.1 ∨ p.1 = q.1 ∧ p.2 < q.2 := by
  unfold lsis
  rw [List.pairwise_flatMap]
  constructor
  · intro x _
    rw [List.pairwise_map]
    exact List.pairwise_lt_range.imp fun h => .inr ⟨rfl, h⟩
  · refine (List.pairwise_lt_range.filter b.io7).imp ?_
    intro x y hxy p hp q hq
    simp only [List.mem_map] at hp hq
    obtain ⟨n, -, rfl⟩ := hp
    obtain ⟨k, -, rfl⟩ := hq
    exact .inl hxy

/-- The LSIs before and after one of them. -/
theorem Board.lsis_split (hx : b.io7 x) (hn : n < kLsis) : ∃ l₁ l₂, b.lsis = l₁ ++ (x, n) :: l₂ ∧
    ∀ p ∈ l₁, p.1 < x ∨ p.1 = x ∧ p.2 < n := by
  obtain ⟨l₁, l₂, hl⟩ := List.append_of_mem (Board.mem_lsis.2 ⟨hx, hn⟩ : (x, n) ∈ b.lsis)
  refine ⟨l₁, l₂, hl, fun p hp => ?_⟩
  have hs := Board.lsis_sorted (b := b)
  rw [hl, List.pairwise_append] at hs
  exact hs.2.2 p hp (x, n) List.mem_cons_self

namespace Machine

variable {m : Machine σ}

theorem resendIids_eq : m.resendIids b = b.lsis.foldl (fun m p => m.deliverAgain b p.1 p.2) m := by
  simp only [resendIids, Board.lsis, List.foldl_flatMap, List.foldl_map, resend]

/-- An LSI that need not be sent, or that a full queue has refused and refuses again. -/
theorem deliverAgain_idle (hx : b.io7 x) (hn : n < kLsis)
    (h : ∀ pid, m.Waiting b x n pid → (m.csr pid).Full b) : m.deliverAgain b x n = m := by
  unfold deliverAgain
  split
  · rename_i hr
    unfold deliver
    split
    · rfl
    · rename_i taken m' hp
      obtain ⟨pid, hready, hcsr, ⟨-, c, hc, -⟩ | ⟨rfl, -, rfl⟩⟩ := post_spec hp
      · exact absurd (h pid ⟨hx, hn, hready, hcsr⟩) (Csr.postIid_spec hc).1
      · have hio : (m'.io7 x).answered n false = m'.io7 x := by
          simp [Io7.answered, ← hr]
        rw [answered, hio, setIo7, Function.update_eq_self]
  · rfl

theorem foldl_idle {l : List (Nat × Nat)} (h : ∀ p ∈ l, m.deliverAgain b p.1 p.2 = m) :
    l.foldl (fun m p => m.deliverAgain b p.1 p.2) m = m := by
  induction l with
  | nil => rfl
  | cons p l ih =>
    rw [List.foldl_cons, h p List.mem_cons_self]
    exact ih fun q hq => h q (List.mem_cons_of_mem p hq)

/-- A delivery to a queue with room. -/
theorem deliverAgain_sent (hw : m.Waiting b x n pid) (hr : (m.io7 x).refused n = true)
    (hroom : ¬ (m.csr pid).Full b) : ∃ c, c.intq = (m.csr pid).intq ++ [iidOf x n] ∧
      m.deliverAgain b x n = { (m.setCsr pid c).setIo7 x ((m.io7 x).answered n true) with
        world := m.world.note (.iid pid (iidOf x n)) } := by
  obtain ⟨hx, hn, hready, hcsr⟩ := hw
  cases hc : (m.csr pid).postIid b pid (iidOf x n) with
  | none => exact absurd (Csr.postIid_eq_none.1 hc) hroom
  | some c =>
    refine ⟨c, ?_, ?_⟩
    · rw [(Csr.postIid_spec hc).2.1, iidOf_queued (b.io7_lt x hx) hn]
    · simp only [deliverAgain, hr, if_true, deliver, post, hready, hcsr, hc]
      rfl

/-- The pass of `resend_iids` after a pop of a queue that LSI `n` of IO7 `x` is the first to wait
for. -/
theorem Inv.resendIids_popped (h : m.Inv b) (hw : m.Waiting b x n pid)
    (hfirst : m.FirstWaiting b x n pid) {m₁ : Machine σ} (hio : m₁.io7 = m.io7)
    (hpid : (m₁.csr pid).intq = (m.csr pid).intq.drop 1)
    (hcsr : ∀ q, q ≠ pid → m₁.csr q = m.csr q) :
    ((m₁.resendIids b).io7 x).inService n = true ∧
      ((m₁.resendIids b).csr pid).intq = (m.csr pid).intq.drop 1 ++ [iidOf x n] := by
  obtain ⟨hr, hf⟩ := h.waits x n pid hw
  have hlen : (m.csr pid).intq.length = kIntQueue21464 := Nat.le_antisymm (h.ok pid hf.1).1 hf.2
  obtain ⟨l₁, l₂, hl, hbefore⟩ := Board.lsis_split hw.1 hw.2.1
  have hmem : ∀ p ∈ l₁ ++ l₂, b.io7 p.1 ∧ p.2 < kLsis := by
    intro p hp
    refine Board.mem_lsis.1 ?_
    rw [hl]
    simp only [List.mem_append, List.mem_cons] at hp ⊢
    exact hp.imp id .inr
  have hwait : ∀ y k q, m₁.Waiting b y k q → m.Waiting b y k q := by
    intro y k q hq
    unfold Waiting at hq
    rwa [hio] at hq
  -- those before it wait for other queues, which are as full as they were
  have hidle₁ : ∀ p ∈ l₁, m₁.deliverAgain b p.1 p.2 = m₁ := by
    intro p hp
    obtain ⟨hp1, hp2⟩ := hmem p (List.mem_append_left l₂ hp)
    refine deliverAgain_idle hp1 hp2 fun q hq => ?_
    have hqp : q ≠ pid := by
      rintro rfl
      exact hfirst p.1 p.2 (hbefore p hp) (hwait _ _ _ hq)
    rw [hcsr q hqp]
    exact (h.waits p.1 p.2 q (hwait _ _ _ hq)).2
  have hroom : ¬ (m₁.csr pid).Full b := by
    rintro ⟨-, hfull⟩
    rw [hpid, List.length_drop, hlen] at hfull
    exact absurd hfull (by decide)
  have hw₁ : m₁.Waiting b x n pid := by
    unfold Waiting
    rwa [hio]
  obtain ⟨c, hc, hsent⟩ := deliverAgain_sent hw₁ (by rwa [hio]) hroom
  rw [hpid] at hc
  generalize hm₂ : m₁.deliverAgain b x n = m₂ at hsent
  have hio₂ : ∀ y, m₂.io7 y = if y = x then (m.io7 x).answered n true else m.io7 y := by
    intro y
    rw [hsent, ← hio]
    exact setIo7_io7
  have hcsr₂ : ∀ q, m₂.csr q = if q = pid then c else m₁.csr q := by
    intro q
    rw [hsent]
    exact setCsr_csr
  -- and those after it find every queue full again
  have hidle₂ : ∀ p ∈ l₂, m₂.deliverAgain b p.1 p.2 = m₂ := by
    intro p hp
    obtain ⟨hp1, hp2⟩ := hmem p (List.mem_append_right l₁ hp)
    refine deliverAgain_idle hp1 hp2 fun q hq => ?_
    obtain ⟨-, -, hready, hq⟩ := hq
    rw [hio₂] at hready
    rw [hcsr₂]
    have hold : (m.io7 p.1).ready p.2 = some q := by
      split at hready
      · rename_i hpx
        by_cases hpn : p.2 = n
        · rw [hpn, Io7.ready_answered] at hready
          cases hready
        · rw [(Io7.answered_ne hpn).1] at hready
          rw [hpx]
          exact hready
      · exact hready
    by_cases hqp : q = pid
    · rw [if_pos hqp]
      refine ⟨hf.1, ?_⟩
      rw [hc, List.length_append, List.length_drop, hlen, List.length_singleton]
      decide
    · rw [if_neg hqp, hcsr q hqp]
      exact (h.waits p.1 p.2 q ⟨hp1, hp2, hold, hq⟩).2
  rw [resendIids_eq, hl, List.foldl_append, List.foldl_cons, foldl_idle hidle₁, hm₂,
    foldl_idle hidle₂, hio₂, hcsr₂, if_pos rfl, if_pos rfl]
  exact ⟨by simp [Io7.answered], hc⟩

theorem Inv.sentByPop (h : m.Inv b) (hw : m.Waiting b x n pid) (hfirst : m.FirstWaiting b x n pid) :
    m.SentByPop M b x n pid := by
  intro dsize data
  obtain ⟨-, hf⟩ := h.waits x n pid hw
  have hne : (m.csr pid).intq ≠ [] := by
    intro hne
    have hlen := hf.2
    rw [hne] at hlen
    cases hlen
  have hroom : ((m.csr pid).write M b pid m.world RBOX_INTQ dsize data).2.2 = true := by
    rw [Csr.write_pop.2, hf.1]
    simpa using hne
  simp only [step, hw.2.2.2, if_true, hroom]
  refine h.resendIids_popped hw hfirst rfl ?_ fun q hq => ?_
  · change ((m.setCsr pid _).csr pid).intq = _
    rw [setCsr_csr, if_pos rfl]
    exact Csr.write_pop.1
  · exact setCsr_csr.trans (if_neg hq)

end Machine

/-! ## The promise -/

/-- Whenever no operation is in progress:
* an LSI that waits is marked refused and its target's queue is full, and the next pop of that
  queue sends the first of them in the order of the IO7s and of the LSIs' numbers;
* if no IID was forged, an LSI in service has exactly one IID in a queue or popped and not yet
  ended, and any other LSI has none;
* in 21464 mode `R_INT_STAT<12>` is set iff the queue is not empty. -/
theorem interrupts_kept (h : SysRun M b EndsPopped s) (hq : s.Quiet) :
    (∀ x n pid, s.m.Waiting b x n pid → (s.m.io7 x).refused n = true ∧ (s.m.csr pid).Full b ∧
      (s.m.FirstWaiting b x n pid → s.m.SentByPop M b x n pid)) ∧
    (OrderlyRun M b s → ∀ x n, b.io7 x → n < kLsis →
      s.copies (iidOf x n) = if (s.m.io7 x).inService n then 1 else 0) ∧
    (b.m21464 → ∀ pid, (s.m.csr pid).queued = true ↔ (s.m.csr pid).intq ≠ []) := by
  have hi := (inv_run h).quiet hq
  refine ⟨fun x n pid hw => ?_, fun ho x n hx hn => ?_, fun hm pid => (hi.ok pid hm).2⟩
  · exact ⟨(hi.waits x n pid hw).1, (hi.waits x n pid hw).2, hi.sentByPop hw⟩
  · have hc := counted_run ho
    have hno : ¬ Flight s x n := by
      rintro ⟨t, ht⟩
      rw [hq t] at ht
      cases ht
    cases hs : (s.m.io7 x).inService n with
    | true => exact hc.one x n hx hn (.inl hs)
    | false => exact hc.zero x n hx hn hs hno

/-- One block and one IO7 in 21464 mode. -/
def oneBoard : Board where
  m21464 := true
  csr pid := pid = 0
  io7 x := x = 0
  tpus := 1
  cpu pid := pid = 0
  tpuCpu pid t := pid = 0 && t = 0
  named _ _ := none
  ioClock _ := 0
  ioSysRev _ := 0
  csr_lt := by simp [kMaxPids]
  io7_lt := by simp [kMaxPids]

/-- A management side that answers nothing. -/
def silent : Management Unit where
  gioWrite s _ _ _ := (true, s)
  gioRead s _ _ := (none, s)
  gioPoll s _ _ := (none, s)

def begins (op : Machine.Op) (steps : Nat) : List (Sys.Act Unit) :=
  .begin () op :: List.replicate steps (.advance ())

/-- LSI `n` is enabled and its line goes high. -/
def raise (n : Nat) : List (Sys.Act Unit) :=
  begins (.io7Write 0 7 (kCsrOff + LSI_CTL + n * 0x40) 64 CTL_ENABLE) 2 ++
    begins (.interrupt n true) 3

def after (acts : List (Sys.Act Unit)) : Sys Unit Unit :=
  acts.foldl (Sys.step silent oneBoard) (.init oneBoard ⟨(), fun _ => false, []⟩)

/-- A step that neither ends an interrupt nor adds an IID. -/
def Plain : Sys.Act Unit → Prop
  | .begin _ (.io7Write _ port off _ _) => isEoi port off = false
  | .begin _ (.csrWrite _ off _ _) => off ≠ RBOX_INTA
  | _ => True

theorem Plain.orderly {a : Sys.Act Unit} (h : Plain a) (s : Sys Unit Unit) :
    EndsPopped s a ∧ AddsForeign oneBoard s a := by
  cases a with
  | advance t => exact ⟨trivial, trivial⟩
  | begin t op =>
    cases op with
    | interrupt number assert => exact ⟨trivial, trivial⟩
    | io7Write x port off dsize data =>
      refine ⟨fun he => ?_, trivial⟩
      rw [show isEoi port off = false from h] at he
      cases he
    | csrWrite pid off dsize data => exact ⟨trivial, fun _ ho => absurd ho h⟩
    | csrRead pid off dsize => exact ⟨trivial, trivial⟩

theorem raise_plain (n : Nat) : ∀ a ∈ raise n, Plain a := by
  intro a ha
  simp only [raise, begins, List.mem_append, List.mem_cons, List.mem_replicate] at ha
  rcases ha with (rfl | ⟨-, rfl⟩) | (rfl | ⟨-, rfl⟩)
  · exact Bool.and_eq_false_imp.2 fun h => absurd h (by decide)
  · trivial
  · trivial
  · trivial

theorem after_run {ok : Sys Unit Unit → Sys.Act Unit → Prop} {acts : List (Sys.Act Unit)}
    (h : ∀ a ∈ acts, ∀ s, ok s a) : SysRun silent oneBoard ok (after acts) :=
  Lib.Reach.foldl (.start ⟨_, rfl⟩) acts h

/-- Five LSIs for a queue of four: the fifth is refused, and the pop of the first one's IID sends
it. -/
def popFirst : List (Sys.Act Unit) :=
  (List.range 5).flatMap raise ++ begins (.csrWrite 0 RBOX_INTQ 64 0) 132

theorem popFirst_plain : ∀ a ∈ popFirst, Plain a := by
  intro a ha
  rcases List.mem_append.1 ha with ha | ha
  · obtain ⟨n, -, hn⟩ := List.mem_flatMap.1 ha
    exact raise_plain n a hn
  · rcases List.mem_cons.1 ha with rfl | ha
    · show RBOX_INTQ ≠ RBOX_INTA
      decide
    · rw [(List.mem_replicate.1 ha).2]
      trivial

/-- The end of the first one. -/
def endFirst : Sys.Act Unit := .begin () (.io7Write 0 0 (kCsrOff + EOI_DAT) 64 (iidOf 0 0))

/-- What is popped may be ended, whatever else a run asks for. -/
theorem popFirst_run {ok : Sys Unit Unit → Sys.Act Unit → Prop}
    (hplain : ∀ a, Plain a → ∀ s, ok s a) (hend : ok (after popFirst) endFirst) :
    SysRun silent oneBoard ok (after (popFirst ++ endFirst :: List.replicate 3 (.advance ()))) := by
  have hpop : SysRun silent oneBoard ok (after popFirst) :=
    after_run fun a ha => hplain a (popFirst_plain a ha)
  have hrun := Lib.Reach.foldl (hpop.next hend) (List.replicate 3 (.advance ())) fun a ha s => by
    rw [(List.mem_replicate.1 ha).2]
    exact hplain (.advance ()) trivial s
  unfold after
  rw [List.foldl_append, List.foldl_cons]
  exact hrun

/-- The line still being high, the first LSI asks again and is refused: it has no IID, and the next
pop sends it. -/
theorem interrupts_kept_ended :
    let s := after (popFirst ++ endFirst :: List.replicate 3 (.advance ()))
    s.Quiet ∧ (s.m.io7 0).refused 0 = true ∧ s.m.SentByPop silent oneBoard 0 0 0 ∧
      s.copies (iidOf 0 0) = 0 ∧ s.copies (iidOf 0 4) = 1 ∧ (s.m.csr 0).queued = true := by
  have hend : EndsPopped (after popFirst) endFirst := fun _ => by decide +kernel
  have hs := @popFirst_run EndsPopped (fun a ha s => (ha.orderly s).1) hend
  have ho : OrderlyRun silent oneBoard
      (after (popFirst ++ endFirst :: List.replicate 3 (.advance ()))) :=
    popFirst_run (fun a ha s => ha.orderly s) ⟨hend, trivial⟩
  have hq : (after (popFirst ++ endFirst :: List.replicate 3 (.advance ()))).Quiet := by
    rintro ⟨⟩
    decide +kernel
  have hwaits : (after (popFirst ++ endFirst :: List.replicate 3 (.advance ()))).m.Waiting
      oneBoard 0 0 0 := ⟨by decide, by decide, by decide +kernel, by decide⟩
  obtain ⟨hwait, hcopies, hqueued⟩ := interrupts_kept hs hq
  obtain ⟨hrefused, -, hsent⟩ := hwait 0 0 0 hwaits
  refine ⟨hq, hrefused, hsent ?_, ?_, ?_, ?_⟩
  · rintro y k (hy | ⟨-, hk⟩)
    · exact absurd hy (Nat.not_lt_zero y)
    · exact absurd hk (Nat.not_lt_zero k)
  · rw [hcopies ho 0 0 (by decide) (by decide), if_neg (by decide +kernel)]
  · rw [hcopies ho 0 4 (by decide) (by decide), if_pos (by decide +kernel)]
  · exact (hqueued rfl 0).2 (by decide +kernel)

/-- An IID that `R_INT_QUEADD` forges is a second one for its LSI, and of two LSIs that wait for
one queue the next pop sends one. -/
theorem interrupts_not_kept :
    (¬ ∀ s : Sys Unit Unit, SysRun silent oneBoard EndsPopped s → s.Quiet → ∀ x n, oneBoard.io7 x →
      n < kLsis → (s.m.io7 x).inService n = true → s.copies (iidOf x n) = 1) ∧
    ¬ ∀ s : Sys Unit Unit, SysRun silent oneBoard EndsPopped s → s.Quiet → ∀ x n pid,
      s.m.Waiting oneBoard x n pid → s.m.SentByPop silent oneBoard x n pid := by
  constructor
  · intro h
    have hs : SysRun silent oneBoard EndsPopped
        (after (raise 0 ++ begins (.csrWrite 0 RBOX_INTA 64 0) 0)) := by
      refine after_run fun a ha s => ?_
      rcases List.mem_append.1 ha with ha | ha
      · exact ((raise_plain 0 a ha).orderly s).1
      · rw [List.mem_singleton.1 ha]
        trivial
    have hc := h _ hs (by rintro ⟨⟩; decide +kernel) 0 0 (by decide) (by decide) (by decide +kernel)
    exact absurd hc (by decide +kernel)
  · intro h
    have hs : SysRun silent oneBoard EndsPopped (after ((List.range 6).flatMap raise)) := by
      refine after_run fun a ha s => ?_
      obtain ⟨n, -, hn⟩ := List.mem_flatMap.1 ha
      exact ((raise_plain n a hn).orderly s).1
    have hsent := h _ hs (by rintro ⟨⟩; decide +kernel) 0 5 0
      ⟨by decide, by decide, by decide +kernel, by decide⟩ 64 0
    exact absurd hsent.1 (by decide +kernel)

end Alphabox.Marvel
