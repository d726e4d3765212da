import Alphabox.Lib.Count
import Alphabox.Marvel.Proof.Messages

/-!
# No interrupt is sent twice

`Counted`: an LSI in service, or whose IID was just taken, has one IID in a queue or popped and not
yet ended, and any other LSI has none. It needs that only an IO7 sends the IIDs that an IO7 reads
as its own (`AddsForeign`), and that an end of interrupt is for an IID that was popped
(`EndsPopped`).
-/

namespace Alphabox.Marvel

variable {τ σ : Type} [DecidableEq τ] {M : Management σ} {b : Board} {s s' : Sys τ σ} {t : τ}
  {k : Task} {x n pid : Nat}

/-- The IID of LSI `n` of IO7 `x` is taken and the LSI is not yet marked in service. -/
def Flight (s : Sys τ σ) (x n : Nat) : Prop := ∃ t, (s.task t).answer x n = some true

structure Counted (b : Board) (s : Sys τ σ) : Prop where
  one : ∀ x n, b.io7 x → n < kLsis → (s.m.io7 x).inService n = true ∨ Flight s x n →
    s.copies (iidOf x n) = 1
  zero : ∀ x n, b.io7 x → n < kLsis → (s.m.io7 x).inService n = false → ¬ Flight s x n →
    s.copies (iidOf x n) = 0
  flight : ∀ x n, Flight s x n → (s.m.io7 x).inService n = false
  named : ∀ iid x n, iid ∈ s.popped ∨ (∃ pid, iid ∈ (s.m.csr pid).intq) → Names b iid x n →
    iid = iidOf x n

/-! ## Flights -/

theorem flight_move (ht : s'.task = Function.update s.task t k)
    (h1 : (s.task t).answer x n ≠ some true) (h2 : k.answer x n ≠ some true) :
    Flight s' x n ↔ Flight s x n := by
  unfold Flight
  rw [ht]
  constructor
  · rintro ⟨u, hu⟩
    by_cases hut : u = t
    · rw [hut, Function.update_self] at hu
      exact absurd hu h2
    · exact ⟨u, by rwa [Function.update_of_ne hut] at hu⟩
  · exact Lib.exists_update (P := fun k : Task => k.answer x n = some true) fun h => absurd h h1

omit [DecidableEq τ] in
theorem Locks.not_flight (h : Locks s) (ht : (s.task t).holds = some x)
    (ha : (s.task t).answer x n ≠ some true) : ¬ Flight s x n := by
  rintro ⟨u, hu⟩
  have he := h.holder ht (Task.holds_of_answer hu)
  rw [he] at hu
  exact ha hu

omit [DecidableEq τ] in
theorem Locks.not_flight_of_free (h : Locks s) (hx : s.lock x = none) : ¬ Flight s x n := by
  rintro ⟨u, hu⟩
  rw [(h x u).2 (Task.holds_of_answer hu)] at hx
  cases hx

/-! ## Steps that send nothing -/

omit [DecidableEq τ] in
/-- The queues, the marks and the flights stay as they are. -/
theorem Counted.same (h : Counted b s) (hq : ∀ pid, (s'.m.csr pid).intq = (s.m.csr pid).intq)
    (hp : s'.popped = s.popped) (hs : ∀ x, (s'.m.io7 x).inService = (s.m.io7 x).inService)
    (hf : ∀ x n, Flight s' x n ↔ Flight s x n) : Counted b s' := by
  have hc : ∀ iid, s'.copies iid = s.copies iid := by
    intro iid
    simp only [Sys.copies, hq, hp]
  refine ⟨fun x n hx hn h1 => ?_, fun x n hx hn h0 hfl => ?_, fun x n hfl => ?_,
    fun iid x n hm hn => ?_⟩
  · rw [hs, hf] at h1
    rw [hc]
    exact h.one x n hx hn h1
  · rw [hs] at h0
    rw [hf] at hfl
    rw [hc]
    exact h.zero x n hx hn h0 hfl
  · rw [hf] at hfl
    rw [hs]
    exact h.flight x n hfl
  · simp only [hq, hp] at hm
    exact h.named iid x n hm hn

/-- A thread goes on with nothing in flight before and after. -/
theorem Counted.move (h : Counted b s) (hq : ∀ pid, (s'.m.csr pid).intq = (s.m.csr pid).intq)
    (hp : s'.popped = s.popped) (hs : ∀ x, (s'.m.io7 x).inService = (s.m.io7 x).inService)
    (ht : s'.task = Function.update s.task t k) (h1 : ∀ x n, (s.task t).answer x n ≠ some true)
    (h2 : ∀ x n, k.answer x n ≠ some true) : Counted b s' :=
  h.same hq hp hs fun x n => flight_move ht (h1 x n) (h2 x n)

theorem Task.answer_free {todo : List Nat} {a : Bool} : (Task.free todo).answer x n ≠ some a :=
  nofun

theorem Task.answer_sending {y : Nat} {again a : Bool} {ns todo : List Nat} :
    (Task.sending y again ns todo).answer x n ≠ some a :=
  nofun

theorem Task.answer_posted {y k : Nat} {taken again : Bool} {ns todo : List Nat} :
    (Task.posted y k taken again ns todo).answer x n = some true ↔ y = x ∧ k = n ∧ taken = true := by
  simp only [answer]
  split
  · rename_i h
    simp [h]
  · rename_i h
    simp only [reduceCtorEq, false_iff]
    rintro ⟨h1, h2, -⟩
    exact h ⟨h1, h2⟩

/-! ## Counts -/

omit [DecidableEq τ] in
theorem copies_setCsr {c : Csr} (hp : pid < kMaxPids)
    (hm : s'.m.csr = Function.update s.m.csr pid c) (iid : BitVec 64) :
    s'.copies iid + (s.m.csr pid).intq.count iid + s.popped.count iid =
      s.copies iid + c.intq.count iid + s'.popped.count iid := by
  have hs := Lib.sum_update (Finset.mem_range.2 hp) s.m.csr (fun c => c.intq.count iid) c
  unfold Sys.copies
  rw [hm]
  omega

omit [DecidableEq τ] in
/-- The block of `pid` changes and nothing is noted: the queue and what is popped from it hold
what they held, or also an IID that no IO7 reads as its own. -/
theorem counted_csr (h : Counted b s) (hp : pid < kMaxPids) {c : Csr} {add : List (BitVec 64)}
    (hm : s'.m.csr = Function.update s.m.csr pid c) (hio : s'.m.io7 = s.m.io7)
    (hadd : ∀ iid ∈ add, ∀ x n, ¬ Names b iid x n)
    (hc : (c.intq ++ s'.popped).Perm ((s.m.csr pid).intq ++ s.popped ++ add))
    (hf : ∀ x n, Flight s' x n ↔ Flight s x n) : Counted b s' := by
  have hcopies : ∀ x n, b.io7 x → n < kLsis → s'.copies (iidOf x n) = s.copies (iidOf x n) := by
    intro x n hx hn
    have h1 := copies_setCsr hp hm (iidOf x n)
    have h2 := hc.count_eq (iidOf x n)
    have h3 : add.count (iidOf x n) = 0 :=
      List.count_eq_zero.2 fun hmem => hadd _ hmem x n (iidOf_names hx hn)
    simp only [List.count_append] at h2
    omega
  refine ⟨fun x n hx hn h1 => ?_, fun x n hx hn h0 hfl => ?_, fun x n hfl => ?_,
    fun iid x n hmem hn => ?_⟩
  · rw [hio, hf] at h1
    rw [hcopies x n hx hn]
    exact h.one x n hx hn h1
  · rw [hio] at h0
    rw [hf] at hfl
    rw [hcopies x n hx hn]
    exact h.zero x n hx hn h0 hfl
  · rw [hf] at hfl
    rw [hio]
    exact h.flight x n hfl
  · have hcase : iid ∈ (s.m.csr pid).intq ++ s.popped ++ add ∨ ∃ q, iid ∈ (s.m.csr q).intq := by
      rcases hmem with hmem | ⟨q, hmem⟩
      · exact .inl (hc.subset (List.mem_append_right _ hmem))
      · rw [hm] at hmem
        by_cases hq : q = pid
        · rw [hq, Function.update_self] at hmem
          exact .inl (hc.subset (List.mem_append_left _ hmem))
        · rw [Function.update_of_ne hq] at hmem
          exact .inr ⟨q, hmem⟩
    rcases hcase with hcase | hcase
    · simp only [List.mem_append] at hcase
      rcases hcase with (hcase | hcase) | hcase
      · exact h.named iid x n (.inr ⟨pid, hcase⟩) hn
      · exact h.named iid x n (.inl hcase) hn
      · exact absurd hn (hadd iid hcase x n)
    · exact h.named iid x n (.inr hcase) hn

/-! ## A delivery -/

theorem Io7.ready_inService {io : Io7} {q : Nat} (h : io.ready n = some q) :
    io.inService n = false := by
  unfold ready at h
  split at h
  · cases h
  · rename_i hl
    simp_all

/-- An IO7 that exists has an IID of its own for each LSI. -/
theorem iidOf_inj {y k : Nat} (hx : b.io7 x) (hn : n < kLsis) (hy : b.io7 y) (hk : k < kLsis)
    (h : iidOf y k = iidOf x n) : y = x ∧ k = n := by
  have h' := iidOf_names hx hn
  rw [← h] at h'
  exact (iidOf_names hy hk).unique h'

/-- The queue of `pid` takes the IID. -/
theorem counted_taken (h : Counted b s) (hl : Locks s) (hx : b.io7 x) (hn : n < kLsis)
    (hp : b.csr pid) {again : Bool} {ns todo : List Nat}
    (ht : s.task t = .sending x again (n :: ns) todo)
    (hfree : (s.m.io7 x).inService n = false) {c : Csr}
    (hq : c.intq = (s.m.csr pid).intq ++ [iidOf x n])
    (hm : s'.m.csr = Function.update s.m.csr pid c) (hio : s'.m.io7 = s.m.io7)
    (hpop : s'.popped = s.popped)
    (ht' : s'.task = Function.update s.task t (.posted x n true again ns todo)) :
    Counted b s' := by
  have hno : ¬ Flight s x n := hl.not_flight (by rw [ht]; rfl) (by rw [ht]; exact Task.answer_sending)
  -- one copy more, of this IID
  have hcopies : ∀ iid, s'.copies iid = s.copies iid + [iidOf x n].count iid := by
    intro iid
    have h1 := copies_setCsr (b.csr_lt pid hp) hm iid
    rw [hq, List.count_append, hpop] at h1
    omega
  have hother : ∀ y k, b.io7 y → k < kLsis → ¬ (x = y ∧ n = k) →
      s'.copies (iidOf y k) = s.copies (iidOf y k) := by
    intro y k hy hk hyk
    have hne : iidOf x n ≠ iidOf y k := fun he => hyk (iidOf_inj hy hk hx hn he)
    rw [hcopies, List.count_singleton, if_neg (by simpa using hne), Nat.add_zero]
  -- and one LSI more in flight, this one
  have hf : ∀ y k, ¬ (x = y ∧ n = k) → (Flight s' y k ↔ Flight s y k) := by
    intro y k hyk
    refine flight_move ht' (by rw [ht]; exact Task.answer_sending) fun ha => ?_
    rw [Task.answer_posted] at ha
    exact hyk ⟨ha.1, ha.2.1⟩
  refine ⟨fun y k hy hk h1 => ?_, fun y k hy hk h0 hfl => ?_, fun y k hfl => ?_,
    fun iid y k hmem hnm => ?_⟩
  · by_cases hyk : x = y ∧ n = k
    · obtain ⟨rfl, rfl⟩ := hyk
      rw [hcopies, h.zero x n hx hn hfree hno, List.count_singleton_self]
    · rw [hio, hf y k hyk] at h1
      rw [hother y k hy hk hyk]
      exact h.one y k hy hk h1
  · by_cases hyk : x = y ∧ n = k
    · obtain ⟨rfl, rfl⟩ := hyk
      refine absurd ⟨t, ?_⟩ hfl
      rw [ht', Function.update_self, Task.answer_posted]
      exact ⟨rfl, rfl, rfl⟩
    · rw [hio] at h0
      rw [hf y k hyk] at hfl
      rw [hother y k hy hk hyk]
      exact h.zero y k hy hk h0 hfl
  · rw [hio]
    by_cases hyk : x = y ∧ n = k
    · obtain ⟨rfl, rfl⟩ := hyk
      exact hfree
    · rw [hf y k hyk] at hfl
      exact h.flight y k hfl
  · rw [hpop, hm] at hmem
    rcases hmem with hmem | ⟨q, hmem⟩
    · exact h.named iid y k (.inl hmem) hnm
    · by_cases hqp : q = pid
      · rw [hqp, Function.update_self, hq, List.mem_append, List.mem_singleton] at hmem
        rcases hmem with hmem | rfl
        · exact h.named iid y k (.inr ⟨pid, hmem⟩) hnm
        · obtain ⟨rfl, rfl⟩ := hnm.unique (iidOf_names hx hn)
          rfl
      · rw [Function.update_of_ne hqp] at hmem
        exact h.named iid y k (.inr ⟨q, hmem⟩) hnm

/-- The LSI whose IID was taken is marked in service. -/
theorem counted_noted (h : Counted b s) (hl : Locks s) {again : Bool} {ns todo : List Nat}
    (ht : s.task t = .posted x n true again ns todo) (hq : s'.m.csr = s.m.csr)
    (hpop : s'.popped = s.popped)
    (hs : ∀ y k, (s'.m.io7 y).inService k =
      if y = x ∧ k = n then true else (s.m.io7 y).inService k)
    (ht' : s'.task = Function.update s.task t (.sending x again ns todo)) : Counted b s' := by
  have hfl : Flight s x n := by
    refine ⟨t, ?_⟩
    rw [ht, Task.answer_posted]
    exact ⟨rfl, rfl, rfl⟩
  have hl' : ¬ Flight s' x n := by
    rintro ⟨u, hu⟩
    rw [ht'] at hu
    by_cases hut : u = t
    · rw [hut, Function.update_self] at hu
      cases hu
    · rw [Function.update_of_ne hut] at hu
      exact hut (hl.holder (by rw [ht]; rfl) (Task.holds_of_answer hu))
  have hf : ∀ y k, ¬ (y = x ∧ k = n) → (Flight s' y k ↔ Flight s y k) := by
    intro y k hyk
    refine flight_move ht' (fun ha => ?_) Task.answer_sending
    rw [ht, Task.answer_posted] at ha
    exact hyk ⟨ha.1.symm, ha.2.1.symm⟩
  have hc : ∀ iid, s'.copies iid = s.copies iid := by
    intro iid
    simp only [Sys.copies, hq, hpop]
  refine ⟨fun y k hy hk h1 => ?_, fun y k hy hk h0 hfl' => ?_, fun y k hfl' => ?_,
    fun iid y k hmem hnm => ?_⟩
  · rw [hc]
    by_cases hyk : y = x ∧ k = n
    · obtain ⟨rfl, rfl⟩ := hyk
      exact h.one y k hy hk (.inr hfl)
    · rw [hs, if_neg hyk, hf y k hyk] at h1
      exact h.one y k hy hk h1
  · rw [hc]
    by_cases hyk : y = x ∧ k = n
    · rw [hs, if_pos hyk] at h0
      cases h0
    · rw [hs, if_neg hyk] at h0
      rw [hf y k hyk] at hfl'
      exact h.zero y k hy hk h0 hfl'
  · by_cases hyk : y = x ∧ k = n
    · obtain ⟨rfl, rfl⟩ := hyk
      exact absurd hfl' hl'
    · rw [hs, if_neg hyk]
      rw [hf y k hyk] at hfl'
      exact h.flight y k hfl'
  · rw [hpop, hq] at hmem
    exact h.named iid y k hmem hnm

/-! ## An end of interrupt -/

omit [DecidableEq τ] in
/-- The IID of LSI `n` of IO7 `x` is ended. -/
theorem counted_ended (h : Counted b s) (hl : Locks s) (hx : b.io7 x) (hn : n < kLsis)
    (hlock : s.lock x = none) (hmem : iidOf x n ∈ s.popped) (hq : s'.m.csr = s.m.csr)
    (hpop : s'.popped = s.popped.erase (iidOf x n))
    (hs : ∀ y k, (s'.m.io7 y).inService k =
      if y = x ∧ k = n then false else (s.m.io7 y).inService k)
    (hf : ∀ y k, Flight s' y k ↔ Flight s y k) : Counted b s' := by
  have hno : ¬ Flight s x n := hl.not_flight_of_free hlock
  have hpos : 0 < s.popped.count (iidOf x n) := List.count_pos_iff.2 hmem
  have hone : s.copies (iidOf x n) = 1 := by
    cases hsv : (s.m.io7 x).inService n with
    | true => exact h.one x n hx hn (.inl hsv)
    | false =>
      have h0 := h.zero x n hx hn hsv hno
      simp only [Sys.copies] at h0
      omega
  have hself : s'.copies (iidOf x n) = 0 := by
    simp only [Sys.copies, hq, hpop, List.count_erase_self] at hone ⊢
    omega
  have hother : ∀ y k, b.io7 y → k < kLsis → ¬ (y = x ∧ k = n) →
      s'.copies (iidOf y k) = s.copies (iidOf y k) := by
    intro y k hy hk hyk
    have hne : iidOf y k ≠ iidOf x n := fun he => hyk (iidOf_inj hx hn hy hk he)
    simp only [Sys.copies, hq, hpop, List.count_erase_of_ne hne]
  refine ⟨fun y k hy hk h1 => ?_, fun y k hy hk h0 hfl => ?_, fun y k hfl => ?_,
    fun iid y k hmem hnm => ?_⟩
  · by_cases hyk : y = x ∧ k = n
    · rw [hs, if_pos hyk, hf, hyk.1, hyk.2] at h1
      simp [hno] at h1
    · rw [hs, if_neg hyk, hf] at h1
      rw [hother y k hy hk hyk]
      exact h.one y k hy hk h1
  · by_cases hyk : y = x ∧ k = n
    · rw [hyk.1, hyk.2]
      exact hself
    · rw [hs, if_neg hyk] at h0
      rw [hf] at hfl
      rw [hother y k hy hk hyk]
      exact h.zero y k hy hk h0 hfl
  · rw [hs]
    split
    · rfl
    · exact h.flight y k ((hf y k).1 hfl)
  · rw [hpop, hq] at hmem
    exact h.named iid y k (hmem.imp List.mem_of_mem_erase id) hnm

omit [DecidableEq τ] in
/-- An IID that no IO7 reads as its own is ended. -/
theorem counted_ended_foreign (h : Counted b s) {iid : BitVec 64} (hn : ∀ x n, ¬ Names b iid x n)
    (hq : s'.m.csr = s.m.csr) (hpop : s'.popped = s.popped.erase iid)
    (hs : ∀ y, (s'.m.io7 y).inService = (s.m.io7 y).inService)
    (hf : ∀ y k, Flight s' y k ↔ Flight s y k) : Counted b s' := by
  have hc : ∀ y k, b.io7 y → k < kLsis → s'.copies (iidOf y k) = s.copies (iidOf y k) := by
    intro y k hy hk
    have hne : iidOf y k ≠ iid := by
      rintro rfl
      exact hn y k (iidOf_names hy hk)
    simp only [Sys.copies, hq, hpop, List.count_erase_of_ne hne]
  refine ⟨fun y k hy hk h1 => ?_, fun y k hy hk h0 hfl => ?_, fun y k hfl => ?_,
    fun iid y k hmem hnm => ?_⟩
  · rw [hs, hf] at h1
    rw [hc y k hy hk]
    exact h.one y k hy hk h1
  · rw [hs] at h0
    rw [hf] at hfl
    rw [hc y k hy hk]
    exact h.zero y k hy hk h0 hfl
  · rw [hs]
    exact h.flight y k ((hf y k).1 hfl)
  · rw [hpop, hq] at hmem
    exact h.named iid y k (hmem.imp List.mem_of_mem_erase id) hnm

/-! ## Tasks -/

/-- A thread works on IO7s and LSIs that exist. -/
def Task.Ok (b : Board) : Task → Prop
  | .free todo => ∀ x ∈ todo, b.io7 x
  | .sending x _ ns todo => b.io7 x ∧ (∀ n ∈ ns, n < kLsis) ∧ ∀ x ∈ todo, b.io7 x
  | .posted x n _ _ ns todo => b.io7 x ∧ n < kLsis ∧ (∀ n ∈ ns, n < kLsis) ∧ ∀ x ∈ todo, b.io7 x

def Tasks (b : Board) (s : Sys τ σ) : Prop := ∀ t, (s.task t).Ok b

theorem Tasks.move (h : Tasks b s) (ht : s'.task = Function.update s.task t k)
    (hk : (s.task t).Ok b → k.Ok b) : Tasks b s' := by
  intro u
  rw [ht]
  by_cases hu : u = t
  · rw [hu, Function.update_self]
    exact hk (h t)
  · rw [Function.update_of_ne hu]
    exact h u

theorem tasks_advance (h : Tasks b s) : Tasks b (s.advance b t) := by
  unfold Sys.advance
  split
  · exact h
  · rename_i x todo ht
    split
    · refine h.move rfl fun hok => ?_
      rw [ht] at hok
      exact ⟨hok x List.mem_cons_self, fun n hn => List.mem_range.1 hn,
        fun y hy => hok y (List.mem_cons_of_mem x hy)⟩
    · exact h
  · rename_i ht
    refine h.move rfl fun hok => ?_
    rw [ht] at hok
    exact hok.2.2
  · rename_i x again n ns todo ht
    have hnext : (s.task t).Ok b → b.io7 x ∧ n < kLsis ∧ (∀ n ∈ ns, n < kLsis) ∧
        ∀ x ∈ todo, b.io7 x := by
      intro hok
      rw [ht] at hok
      exact ⟨hok.1, hok.2.1 n List.mem_cons_self, fun k hk => hok.2.1 k (List.mem_cons_of_mem n hk),
        hok.2.2⟩
    split
    · exact h.move rfl fun hok => ⟨(hnext hok).1, (hnext hok).2.2⟩
    · split
      · exact h.move rfl fun hok => ⟨(hnext hok).1, (hnext hok).2.2⟩
      · exact h.move rfl hnext
  · rename_i ht
    refine h.move rfl fun hok => ?_
    rw [ht] at hok
    exact ⟨hok.1, hok.2.2⟩

theorem tasks_begin (h : Tasks b s) {op : Machine.Op} : Tasks b (s.begin M b t op) := by
  cases op with
  | interrupt number assert =>
    simp only [Sys.begin]
    split
    · rename_i hx
      exact h.move rfl fun _ => ⟨hx.1, Io7.lsi_touches.lt, by simp⟩
    · exact h
  | io7Write x port off dsize data =>
    simp only [Sys.begin]
    split
    · rename_i hx
      exact h.move rfl fun _ => ⟨hx.1, Io7.write_touches.lt, by simp⟩
    · exact h
  | csrWrite pid off dsize data =>
    simp only [Sys.begin]
    split
    · refine h.move rfl fun _ => ?_
      split
      · intro x hx
        exact (List.mem_filter.1 hx).2
      · simp [Task.Ok]
    · exact h
  | csrRead pid off dsize =>
    simp only [Sys.begin]
    split <;> exact h

/-! ## Steps -/

theorem counted_advance (h : Counted b s) (hl : Locks s) (hts : Tasks b s) :
    Counted b (s.advance b t) := by
  unfold Sys.advance
  split
  · exact h
  · rename_i x todo ht
    split
    · refine h.move ?_ rfl ?_ rfl (t := t) ?_ ?_
      · exact fun _ => rfl
      · exact fun _ => rfl
      · rw [ht]
        exact fun _ _ => Task.answer_free
      · exact fun _ _ => Task.answer_sending
    · exact h
  · rename_i ht
    refine h.move ?_ rfl ?_ rfl (t := t) ?_ ?_
    · exact fun _ => rfl
    · exact fun _ => rfl
    · rw [ht]
      exact fun _ _ => Task.answer_sending
    · exact fun _ _ => Task.answer_free
  · rename_i x again n ns todo ht
    have hans : ∀ x n, (s.task t).answer x n ≠ some true := by
      rw [ht]
      exact fun _ _ => Task.answer_sending
    -- an LSI that is passed over
    have hskip : Counted b (s.setTask t (.sending x again ns todo)) := by
      refine h.move ?_ rfl ?_ rfl hans fun _ _ => Task.answer_sending
      · exact fun _ => rfl
      · exact fun _ => rfl
    split
    · exact hskip
    · split
      · exact hskip
      · rename_i taken m hp
        -- the queue takes the IID, or refuses it and nothing is counted
        obtain ⟨pid, hr, hcsr, ⟨rfl, c, hc, rfl⟩ | ⟨rfl, -, rfl⟩⟩ := Machine.post_spec hp
        · have hok := hts t
          rw [ht] at hok
          have hn := hok.2.1 n List.mem_cons_self
          have hq := (Csr.postIid_spec hc).2.1
          rw [iidOf_queued (b.io7_lt x hok.1) hn] at hq
          exact counted_taken h hl hok.1 hn hcsr ht (Io7.ready_inService hr) hq rfl rfl rfl rfl
        · refine h.move ?_ rfl ?_ rfl hans fun y k ha => ?_
          · exact fun _ => rfl
          · exact fun _ => rfl
          · rw [Task.answer_posted] at ha
            cases ha.2.2
  · rename_i x n taken again ns todo ht
    cases taken with
    | true =>
      -- the answer is noted: from now on the LSI is in service
      refine counted_noted h hl ht rfl rfl (fun y k => ?_) rfl
      change ((s.m.setIo7 x _).io7 y).inService k = _
      rw [Machine.setIo7_io7]
      by_cases hy : y = x
      · subst hy
        simp [Io7.answered, Function.update_apply]
      · simp [hy]
    | false =>
      refine h.move ?_ rfl ?_ rfl (t := t) ?_ fun _ _ => Task.answer_sending
      · exact fun _ => rfl
      · intro y
        change ((s.m.setIo7 x _).io7 y).inService = _
        rw [Machine.setIo7_io7]
        split
        · rename_i hy
          rw [hy]
          rfl
        · rfl
      · rw [ht]
        intro y k ha
        rw [Task.answer_posted] at ha
        cases ha.2.2

/-- An operation of an IO7 that ends no interrupt. -/
theorem counted_io7Op (h : Counted b s) (ht : s.task t = .free []) {r : Io7 × List Nat}
    (hs : r.1.inService = (s.m.io7 x).inService) : Counted b (s.io7Op t x r) := by
  refine h.move ?_ rfl ?_ rfl (t := t) ?_ fun _ _ => Task.answer_sending
  · exact fun _ => rfl
  · intro y
    change ((s.m.setIo7 x r.1).io7 y).inService = _
    rw [Machine.setIo7_io7]
    split
    · rename_i hy
      rw [hy, hs]
    · rfl
  · rw [ht]
    exact fun _ _ => Task.answer_free

theorem counted_eoi (h : Counted b s) (hl : Locks s) (ht : s.task t = .free []) (hx : b.io7 x)
    (hlock : s.lock x = none) {iid : BitVec 64} (hmem : iid ∈ s.popped) (hpe : iidPe iid = x)
    {r : Io7 × List Nat} (hs : r.1.inService = ((s.m.io7 x).endOfInterrupt iid).1.inService) :
    Counted b ({ s with popped := s.popped.erase iid }.io7Op t x r) := by
  have hf : ∀ y k, Flight ({ s with popped := s.popped.erase iid }.io7Op t x r) y k ↔
      Flight s y k := by
    intro y k
    refine flight_move rfl ?_ Task.answer_sending
    rw [ht]
    exact Task.answer_free
  have hio : ∀ y, ({ s with popped := s.popped.erase iid }.io7Op t x r).m.io7 y =
      if y = x then r.1 else s.m.io7 y := fun y => Machine.setIo7_io7
  by_cases hn : Names b iid x (iid &&& 0xff#64).toNat
  · obtain ⟨hmsi, -, hlt, -, -⟩ := hn
    have he := h.named iid x _ (.inl hmem) ⟨hmsi, rfl, hlt, hpe, hx⟩
    rw [he] at hmem
    refine counted_ended h hl hx hlt hlock hmem rfl ?_ (fun y k => ?_) hf
    · exact congrArg _ he
    · rw [hio]
      by_cases hy : y = x
      · subst hy
        have hm : ¬ iid &&& 1#64 <<< 13 ≠ 0 := not_not.2 hmsi
        simp only [if_true, hs, Io7.endOfInterrupt, hm, if_false, Nat.not_le.2 hlt,
          Function.update_apply, true_and]
      · simp [hy]
  · have hforeign : ∀ y k, ¬ Names b iid y k := by
      intro y k hyk
      obtain rfl : x = y := hpe.symm.trans hyk.2.2.2.1
      exact hn ⟨hyk.1, rfl, by rw [hyk.2.1]; exact hyk.2.2.1, hpe, hx⟩
    refine counted_ended_foreign h hforeign rfl rfl (fun y => ?_) hf
    rw [hio]
    split
    · rename_i hy
      rw [hs, hy]
      unfold Io7.endOfInterrupt
      dsimp only
      split
      · rfl
      · rename_i hmsi
        split
        · rfl
        · rename_i hlt
          exact absurd ⟨not_not.1 hmsi, rfl, Nat.not_le.1 hlt, hpe, hx⟩ hn
    · rfl

/-- A write to a block moves an IID from its queue to those popped, or adds one that no IO7 reads
as its own, or leaves both as they are. -/
theorem write_perm {c : Csr} {w : World σ} {off dsize : Nat} {data : BitVec 64}
    {popped : List (BitVec 64)} :
    ((c.write M b pid w off dsize data).1.intq ++
      (if off = RBOX_INTQ then c.intq.take 1 ++ popped else popped)).Perm
    (c.intq ++ popped ++ if b.m21464 = true ∧ off = RBOX_INTA ∧ ¬ c.Full b then
      [data &&& (INTQ_VALID - 1)] else []) := by
  by_cases h1 : off = RBOX_INTQ
  · subst h1
    have h2 : ¬ (b.m21464 = true ∧ RBOX_INTQ = RBOX_INTA ∧ ¬ c.Full b) := by
      rintro ⟨-, h, -⟩
      exact absurd h (by decide)
    rw [if_pos rfl, if_neg h2, List.append_nil, Csr.write_pop.1, ← List.append_assoc]
    refine List.Perm.append_right popped ?_
    refine List.perm_append_comm.trans ?_
    rw [List.take_append_drop]
  · rw [if_neg h1]
    by_cases h2 : b.m21464 = true ∧ off = RBOX_INTA ∧ ¬ c.Full b
    · obtain ⟨hm, rfl, hf⟩ := h2
      rw [(Csr.write_add hm).1, if_neg hf, if_pos ⟨hm, rfl, hf⟩, List.append_assoc, List.append_assoc]
      exact List.Perm.append_left c.intq List.perm_append_comm
    · rw [if_neg h2, List.append_nil]
      have hq : (c.write M b pid w off dsize data).1.intq = c.intq := by
        by_cases h3 : b.m21464 = true ∧ off = RBOX_INTA
        · obtain ⟨hm, rfl⟩ := h3
          have hf : c.Full b := by
            by_contra hf
            exact h2 ⟨hm, rfl, hf⟩
          rw [(Csr.write_add hm).1, if_pos hf]
        · exact (Csr.write_other h1 fun hm ho => h3 ⟨hm, ho⟩).1
      rw [hq]

theorem counted_begin (h : Counted b s) (hl : Locks s) (ht : s.task t = .free [])
    {op : Machine.Op} (h1 : EndsPopped s (.begin t op)) (h2 : AddsForeign b s (.begin t op)) :
    Counted b (s.begin M b t op) := by
  cases op with
  | interrupt number assert =>
    simp only [Sys.begin]
    split
    · exact counted_io7Op h ht Io7.lsi_inService
    · exact h
  | io7Write x port off dsize data =>
    simp only [Sys.begin]
    split
    · rename_i hx
      cases he : isEoi port off with
      | true => exact counted_eoi h hl ht hx.1 hx.2 (h1 he).1 (h1 he).2 (Io7.write_eoi he)
      | false => exact counted_io7Op h ht (Io7.write_inService he)
    · exact h
  | csrWrite pid off dsize data =>
    simp only [Sys.begin]
    split
    · rename_i hp
      refine counted_csr h (b.csr_lt pid hp) rfl rfl ?_ write_perm fun x n => ?_
      · intro iid hiid
        split at hiid
        · rename_i ha
          rw [List.mem_singleton] at hiid
          rw [hiid]
          exact h2 ha.1 ha.2.1
        · cases hiid
      · refine flight_move rfl ?_ Task.answer_free
        rw [ht]
        exact Task.answer_free
    · exact h
  | csrRead pid off dsize =>
    simp only [Sys.begin]
    split
    · refine h.same (fun q => ?_) rfl (fun _ => rfl) fun _ _ => Iff.rfl
      change ((s.m.setCsr pid _).csr q).intq = _
      rw [Machine.setCsr_csr]
      split
      · rename_i hq
        rw [hq]
        exact Csr.read_intq
      · rfl
    · exact h

omit [DecidableEq τ] in
theorem counted_init {w : World σ} : Counted b (Sys.init b w : Sys τ σ) := by
  have hno : ∀ x n, ¬ Flight (Sys.init b w : Sys τ σ) x n := by
    rintro x n ⟨t, ht⟩
    exact Task.answer_free ht
  refine ⟨fun x n _ _ h => ?_, fun x n _ _ _ _ => ?_, fun x n h => absurd h (hno x n),
    fun iid x n h _ => ?_⟩
  · rcases h with h | h
    · cases h
    · exact absurd h (hno x n)
  · simp [Sys.copies, Sys.init, Machine.reset, Csr.reset]
  · simp [Sys.init, Machine.reset, Csr.reset] at h

/-- The runs in which no IID is forged. -/
def OrderlyRun (M : Management σ) (b : Board) : Sys τ σ → Prop :=
  SysRun M b fun s a => EndsPopped s a ∧ AddsForeign b s a

theorem counted_run (h : OrderlyRun M b s) : Counted b s := by
  have hall : Inv b s ∧ Tasks b s ∧ Counted b s := by
    refine Lib.Reach.inv (P := fun s => Inv b s ∧ Tasks b s ∧ Counted b s) ?_ ?_ h
    · rintro s ⟨w, rfl⟩
      refine ⟨inv_init, fun t x hx => ?_, counted_init⟩
      cases hx
    · rintro s a ⟨hi, hts, hc⟩ ⟨h1, h2⟩
      refine ⟨inv_step hi, ?_⟩
      cases a with
      | begin t op =>
        simp only [Sys.step]
        split
        · rename_i ht
          exact ⟨tasks_begin hts, counted_begin hc hi.locks ht h1 h2⟩
        · exact ⟨hts, hc⟩
      | advance t => exact ⟨tasks_advance hts, counted_advance hc hi.locks hts⟩
  exact hall.2.2

end Alphabox.Marvel
