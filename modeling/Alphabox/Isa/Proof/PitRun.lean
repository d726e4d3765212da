import Alphabox.Isa.Proof.PitPlace

/-!
# Mode 0 through suspensions

`Down`: the counter counts down from `n` in mode 0. Any entry but a load keeps it so, and only GATE
changes and state files touch what OUT and the count are derived from (`exec_same`). `PlaceInv`
says that an OUT once high is high at every later reading; it holds of every run (`place_inv`).
-/

namespace Alphabox.Isa

open PitCounter

variable {n t t' now clocks : Nat} {c c' : PitCounter} {w : PitWords} {p q : I8254} {i j : Fin 3}
  {r : PitRun}

/-! ## What the entries keep -/

/-- A count `n` written in mode 0. -/
structure Down (c : PitCounter) (n : Nat) : Prop where
  mode : c.mode = 0
  loaded : c.null = false
  initial : c.initial = n
  none_next : c.nextN = 0
  pos : 1 ≤ n
  le : n ≤ largest c.bcd

/-- The latch may change, and the words of `clock` while the counter runs. -/
structure Same (c c' : PitCounter) : Prop where
  eq : ∃ l k o, c' = { c with latch := l, counter := k, out := o }
  held : c.gate = false → c'.counter = c.counter ∧ c'.out = c.out

theorem Same.refl : Same c c := ⟨⟨c.latch, c.counter, c.out, rfl⟩, fun _ => ⟨rfl, rfl⟩⟩

theorem same_latch (l : PitLatch) : Same c { c with latch := l } :=
  ⟨⟨l, c.counter, c.out, rfl⟩, fun _ => ⟨rfl, rfl⟩⟩

theorem Same.trans {c'' : PitCounter} (h : Same c c') (h' : Same c' c'') : Same c c'' := by
  obtain ⟨⟨l, k, o, rfl⟩, hheld⟩ := h
  obtain ⟨⟨l', k', o', rfl⟩, hheld'⟩ := h'
  refine ⟨⟨l', k', o', rfl⟩, fun hg => ?_⟩
  obtain ⟨h1, h2⟩ := hheld hg
  obtain ⟨h3, h4⟩ := hheld' hg
  exact ⟨h3.trans h1, h4.trans h2⟩

theorem Same.down (h : Same c c') (hd : Down c n) : Down c' n := by
  obtain ⟨⟨l, k, o, rfl⟩, -⟩ := h
  exact ⟨hd.mode, hd.loaded, hd.initial, hd.none_next, hd.pos, hd.le⟩

theorem countNow_eq (h : c.nextN = 0) : c.countNow now = (c, (c.countNow now).2) :=
  Prod.ext (settle_none h) rfl

theorem outNow_eq_pair (h : c.nextN = 0) : c.outNow now = (c, (c.outNow now).2) :=
  Prod.ext (settle_none h) rfl

theorem read_same (h : c.nextN = 0) : Same c (c.read now).1 := by
  unfold PitCounter.read
  rw [countNow_eq h]
  split
  · exact same_latch _
  · dsimp only
    split_ifs <;> first | exact Same.refl | exact same_latch _

theorem latchCount_same (h : c.nextN = 0) : Same c (c.latchCount now) := by
  unfold latchCount
  rw [countNow_eq h]
  split
  · exact Same.refl
  · exact same_latch _

theorem latchStatus_same (h : c.nextN = 0) : Same c (c.latchStatus now) := by
  unfold latchStatus
  rw [outNow_eq_pair h]
  split
  · exact Same.refl
  · exact same_latch _

theorem tick_same (h : Down c n) : Same c (c.tick now clocks).1 := by
  rw [tick, settle_none h.none_next]
  dsimp only
  split
  · exact Same.refl
  · rename_i hg
    rw [if_pos h.mode]
    exact ⟨⟨_, _, _, rfl⟩, fun hc => absurd (.inr hc) hg⟩

theorem set_counter (d : PitCounter) :
    (p.set j d).counter i = if i = j then d else p.counter i := by
  simp [I8254.set, Function.update_apply]

/-- An entry of another counter, or one of this counter's that keeps it. -/
theorem set_same {d : PitCounter} (h : j = i → Same (p.counter i) d) :
    Same (p.counter i) ((p.set j d).counter i) := by
  rw [set_counter]
  split
  · rename_i hij
    exact h hij.symm
  · exact Same.refl

/-- Any entry but a load, a GATE change and a state file. -/
theorem exec_same {op : PitOp} (h : Down (p.counter i) n) (hl : ¬ op.Loads i)
    (hg : ∀ j high, op ≠ .setGate j high) (hs : ∀ q gates now', op ≠ .suspend q gates now') :
    Same (p.counter i) ((p.exec now op).counter i) := by
  cases op with
  | setGate j high => exact absurd rfl (hg j high)
  | suspend q gates now' => exact absurd rfl (hs q gates now')
  | out j =>
    refine set_same fun hj => ?_
    subst hj
    rw [outNow_eq_pair h.none_next]
    exact Same.refl
  | read port =>
    change Same _ ((p.read port now).1.counter i)
    unfold I8254.read
    split
    · refine set_same fun hj => ?_
      subst hj
      exact read_same h.none_next
    · exact Same.refl
  | clock =>
    rw [I8254.exec, I8254.clock_counter, I8254.advance]
    by_cases h0 : p.wholeClocks now = 0
    · rw [if_pos h0]
      exact Same.refl
    · rw [if_neg h0]
      exact tick_same h
  | write port data =>
    change Same _ ((p.write port data now).counter i)
    unfold I8254.write
    split
    · rename_i hport
      split
      · rename_i hd
        dsimp only
        split
        · refine set_same fun hj => ?_
          subst hj
          exact latchCount_same h.none_next
        · rename_i haccess
          refine set_same fun hj => ?_
          subst hj
          exact absurd (.inr ⟨hport, rfl, haccess⟩) hl
      · -- a read-back: the status and then the count
        unfold I8254.readBack
        dsimp only
        split
        · have hstatus : Same (p.counter i)
              (if data.getLsbD 4 then p.counter i else (p.counter i).latchStatus now) := by
            split
            · exact Same.refl
            · exact latchStatus_same h.none_next
          split
          · exact hstatus
          · exact hstatus.trans (latchCount_same (hstatus.down h).none_next)
        · exact Same.refl
    · split
      · refine set_same fun hj => ?_
        subst hj
        exact absurd (.inl rfl) hl
      · exact Same.refl

/-! ## OUT and the count -/

/-- OUT of a counter in mode 0: from the clocks while it runs, and as it was held. -/
theorem outNow_down (h : Down c n) : (c.outNow now).2 =
    if c.gate then decide (n ≤ clocksBetween c.epoch now) else c.out := by
  have hne : n ≠ 0 := Nat.ne_of_gt h.pos
  simp only [outNow, settle_none h.none_next, h.loaded, h.mode, h.initial, hne, Bool.false_eq_true,
    if_false, if_true]
  cases c.gate <;> simp

/-- A count as it is read. -/
def shown (bcd : Bool) (count : Nat) : Nat := if bcd then toBcd count else count % 0x10000

theorem countNow_down (h : Down c n) : (c.countNow now).2 =
    shown c.bcd (if c.gate then wrap c.bcd n (clocksBetween c.epoch now) else c.counter) := by
  have hne : n ≠ 0 := Nat.ne_of_gt h.pos
  simp only [countNow, settle_none h.none_next, h.loaded, h.mode, h.initial, shown]
  cases c.gate <;> simp [hne]

theorem phase_down (h : Down c n) : c.toPitWords.phase =
    if c.out = false then if c.counter ≤ n then n - c.counter else 0
    else n + wrap c.bcd 0 c.counter :=
  phase_mode0 h.mode h.loaded h.initial h.pos

theorem phase_le (h : Down c n) : c.toPitWords.phase ≤ 0x20000 := by
  have hle := h.le
  have hmax := @largest_le c.bcd
  have hwrap := @wrap_lt c.counter 0 c.bcd
  rw [phase_down h]
  split
  · split <;> omega
  · omega

/-- The words of a suspended counter: its count is that of its place. -/
def Held (c : PitCounter) (n : Nat) : Prop := c.out = false → c.counter ≤ n

/-- The count `d` clocks past the place is the one held less `d`. -/
theorem wrap_phase {d : Nat} (h : Down c n) (hh : Held c n) :
    wrap c.bcd n (c.toPitWords.phase + d) = wrap c.bcd c.counter d := by
  have hplace : c.counter + c.toPitWords.phase ≡ n [MOD largest c.bcd] := by
    rw [phase_down h]
    cases ho : c.out with
    | false =>
      have hle := hh ho
      rw [if_pos rfl, if_pos hle, Nat.add_sub_cancel' hle]
    | true =>
      rw [if_neg Bool.noConfusion]
      have h0 : wrap c.bcd 0 c.counter + c.counter ≡ 0 [MOD largest c.bcd] := wrap_add
      have h1 := h0.add_right n
      rw [Nat.zero_add] at h1
      have h2 : c.counter + (n + wrap c.bcd 0 c.counter) =
          wrap c.bcd 0 c.counter + c.counter + n := by omega
      rw [h2]
      exact h1
  refine wrap_unique wrap_lt ?_
  have h3 : wrap c.bcd c.counter d + d ≡ c.counter [MOD largest c.bcd] := wrap_add
  have h4 := (h3.add_right c.toPitWords.phase).trans hplace
  have h5 : wrap c.bcd c.counter d + (c.toPitWords.phase + d) =
      wrap c.bcd c.counter d + d + c.toPitWords.phase := by omega
  rw [h5]
  exact h4

/-! ## A suspension -/

/-- A counter that goes on from held words at `t`: its clocks from the next nanosecond on. -/
theorem goes_on {e : Nat} (h : Down c n) (he : e = sub64 t (nsForClocks c.toPitWords.phase))
    (hle : nsForClocks 0x20000 ≤ t) (ht : t < U64) (hlt : t < t') :
    ∃ d, clocksBetween e t' = c.toPitWords.phase + d ∧ d ≤ clocksBetween t t' := by
  rw [he]
  exact clocks_resumed (Nat.le_trans (nsForClocks_mono (phase_le h)) hle) ht hlt

/-- Words held with OUT high are past the terminal count. -/
theorem phase_high (h : Down c n) (ho : c.out = true) : n ≤ c.toPitWords.phase := by
  rw [phase_down h, if_neg (by rw [ho]; exact Bool.noConfusion)]
  exact Nat.le_add_right _ _

/-- The words of a counter that runs, frozen. -/
theorem frozen_down (h : Down c n) (hg : c.gate = true) :
    (c.freeze now c.toPitWords).2 = { c.toPitWords with
      counter := wrap c.bcd n (clocksBetween c.epoch now)
      out := decide (n ≤ clocksBetween c.epoch now) } := by
  have hne : n ≠ 0 := Nat.ne_of_gt h.pos
  simp [freeze, frozen, settle_none h.none_next, h.loaded, hg, h.initial, hne, h.mode]

/-- The words that a suspension leaves: those of a counter held, or frozen as it runs. -/
theorem frozen_spec (h : Down c n) (hh : c.gate = false → Held c n) :
    ∃ k o, (c.freeze now c.toPitWords).2 = { c.toPitWords with counter := k, out := o } ∧
      o = (c.outNow now).2 ∧ (o = false → k ≤ n) := by
  cases hg : c.gate with
  | true =>
    refine ⟨_, _, frozen_down h hg, ?_, fun ho => ?_⟩
    · rw [outNow_down h, hg]
      rfl
    · have hlt : clocksBetween c.epoch now < n := by simpa using ho
      have hle := h.le
      rcases Nat.lt_or_ge (n - clocksBetween c.epoch now) (largest c.bcd) with hs | hs
      · rw [wrap_zero (Nat.le_of_lt hlt) hs]
        exact Nat.sub_le _ _
      · -- the largest count, with no clock gone, is zero
        have h0 : clocksBetween c.epoch now = 0 := by omega
        have hn : n = largest c.bcd := by omega
        rw [h0, hn, wrap_largest]
        exact Nat.zero_le _
  | false =>
    refine ⟨c.counter, c.out, ?_, ?_, hh hg⟩
    · simp [freeze, frozen, settle_none h.none_next, hg]
    · rw [outNow_down h, hg]
      rfl

/-- A GATE that falls holds the counter where it is. -/
theorem setGate_low (h : Down c n) (hg : c.gate = true) : c.setGate false now =
    { c with toPitWords := (c.freeze now c.toPitWords).2, gate := false } := by
  simp [PitCounter.setGate, settle_none h.none_next, hg, h.mode]

/-- A GATE that rises places the phase reference. -/
theorem setGate_high (h : Down c n) (hg : c.gate = false) : c.setGate true now =
    { c with gate := true, epoch := sub64 now (nsForClocks c.toPitWords.phase) } := by
  simp [PitCounter.setGate, settle_none h.none_next, hg, h.mode]

theorem setGate_none {g : Bool} (h : Down c n) (hg : c.gate = g) : c.setGate g now = c := by
  have hsame : c.setGate g now = { c with gate := g } := by
    cases g <;> simp [PitCounter.setGate, settle_none h.none_next, hg]
  rw [hsame, ← hg]

/-! ## The invariant -/

/-- What an OUT once high leaves in the counter (module doc). -/
structure PlaceInv (i : Fin 3) (n : Nat) (r : PitRun) : Prop where
  down : Down (r.timer.counter i) n
  running : (r.timer.counter i).gate = true → r.high = true → ∀ t, r.Later t →
    n ≤ clocksBetween (r.timer.counter i).epoch t
  held : (r.timer.counter i).gate = false →
    (r.high = true → (r.timer.counter i).out = true) ∧ Held (r.timer.counter i) n

/-- OUT at a later reading, once it has been high. -/
theorem PlaceInv.out_high (h : PlaceInv i n r) (hh : r.high = true) (ht : r.Later t) :
    ((r.timer.counter i).outNow t).2 = true := by
  rw [outNow_down h.down]
  cases hg : (r.timer.counter i).gate with
  | true => exact decide_eq_true (h.running hg hh t ht)
  | false => exact (h.held hg).1 hh

/-- An OUT high at a step is the OUT then. -/
theorem PlaceInv.high_step (h : PlaceInv i n r) (ht : r.Later t)
    (hh : (r.high || ((r.timer.counter i).outNow t).2) = true) :
    ((r.timer.counter i).outNow t).2 = true := by
  cases hr : r.high with
  | true => exact h.out_high hr ht
  | false => simpa [hr] using hh

/-- A counter that goes on from words that hold OUT as it was. -/
theorem placeInv_resumed {r' : PitRun} {o : Bool} (hd : Down (r'.timer.counter i) n)
    (hheld : Held (r'.timer.counter i) n) (ho : (r'.timer.counter i).out = o)
    (hhigh : r'.high = true → o = true) (hres : r'.resumed = true)
    (he : (r'.timer.counter i).epoch =
      sub64 r'.now (nsForClocks (r'.timer.counter i).toPitWords.phase))
    (hle : nsForClocks 0x20000 ≤ r'.now) (hlt : r'.now < U64) : PlaceInv i n r' := by
  refine ⟨hd, fun _ hh t ht => ?_, fun _ => ⟨fun hh => ho.trans (hhigh hh), hheld⟩⟩
  obtain ⟨d, hclocks, -⟩ := goes_on hd he hle hlt (ht.2.1 hres)
  rw [hclocks]
  exact Nat.le_trans (phase_high hd (ho.trans (hhigh hh))) (Nat.le_add_right _ _)

/-- The counter after an entry that keeps it. -/
theorem PlaceInv.same (h : PlaceInv i n r) (ht : r.Later t) {r' : PitRun}
    (hs : Same (r.timer.counter i) (r'.timer.counter i)) (hnow : r'.now = t)
    (hhigh : r'.high = (r.high || ((r.timer.counter i).outNow t).2)) : PlaceInv i n r' := by
  have hdown := hs.down h.down
  obtain ⟨⟨l, k, o, heq⟩, hheld⟩ := hs
  have hgate : (r'.timer.counter i).gate = (r.timer.counter i).gate := by rw [heq]
  have hepoch : (r'.timer.counter i).epoch = (r.timer.counter i).epoch := by rw [heq]
  refine ⟨hdown, fun hg hh t' ht' => ?_, fun hg => ?_⟩
  · have hout := h.high_step ht (hhigh ▸ hh)
    rw [outNow_down h.down, ← hgate, hg, if_pos rfl, decide_eq_true_eq] at hout
    rw [hepoch]
    exact Nat.le_trans hout (clocksBetween_mono (hnow ▸ ht'.1))
  · rw [hgate] at hg
    obtain ⟨hcounter, hout⟩ := hheld hg
    obtain ⟨-, hle⟩ := h.held hg
    refine ⟨fun hh => ?_, fun ho => ?_⟩
    · have hhi := h.high_step ht (hhigh ▸ hh)
      rw [outNow_down h.down, hg] at hhi
      exact hout.trans hhi
    · rw [hcounter]
      exact hle (hout ▸ ho)

theorem PlaceInv.setGate (h : PlaceInv i n r) {high : Bool}
    (hok : r.allowed i (t, .setGate j high)) : PlaceInv i n (r.step i (t, .setGate j high)) := by
  obtain ⟨ht, -, hle⟩ := hok
  have htimer : (r.step i (t, .setGate j high)).timer.counter i =
      if i = j then (r.timer.counter j).setGate high t else r.timer.counter i := set_counter _
  by_cases hij : i = j
  · subst hij
    rw [if_pos rfl] at htimer
    by_cases hsame : (r.timer.counter i).gate = high
    · rw [setGate_none h.down hsame] at htimer
      exact h.same ht (htimer ▸ Same.refl) rfl rfl
    · have hhigh := fun hh => h.high_step ht (show (r.high ||
        ((r.timer.counter i).outNow t).2) = true from hh)
      cases high with
      | false =>
        have hg : (r.timer.counter i).gate = true := by simpa using hsame
        rw [setGate_low h.down hg] at htimer
        obtain ⟨k, o, hw, ho, hk⟩ := @frozen_spec _ t _ h.down fun h0 => (h.held h0).2
        rw [hw] at htimer
        refine ⟨?_, fun hc => ?_, fun _ => ?_⟩
        · rw [htimer]
          exact ⟨h.down.mode, h.down.loaded, h.down.initial, h.down.none_next, h.down.pos,
            h.down.le⟩
        · rw [htimer] at hc
          cases hc
        · rw [htimer]
          exact ⟨fun hh => ho.trans (hhigh hh), hk⟩
      | true =>
        have hg : (r.timer.counter i).gate = false := by simpa using hsame
        rw [setGate_high h.down hg] at htimer
        have hres : (r.step i (t, .setGate i true)).resumed = true := by
          simp [PitRun.step, hg]
        refine placeInv_resumed (o := (r.timer.counter i).out) ?_ ?_ ?_ (fun hh => ?_) hres ?_ hle
          ht.2.2
        · rw [htimer]
          exact ⟨h.down.mode, h.down.loaded, h.down.initial, h.down.none_next, h.down.pos,
            h.down.le⟩
        · rw [htimer]
          exact (h.held hg).2
        · rw [htimer]
        · have := hhigh hh
          rwa [outNow_down h.down, hg] at this
        · rw [htimer]
          rfl
  · rw [if_neg hij] at htimer
    exact h.same ht (htimer ▸ Same.refl) rfl rfl

/-! ## A state file -/

theorem restored_spec : ∃ l b, c.restored now = { c with
    latch := l
    lsb := b
    nextN := 0
    epoch := sub64 now (nsForClocks c.toPitWords.phase) } := by
  unfold PitCounter.restored
  dsimp only
  split
  · exact ⟨_, _, rfl⟩
  · exact ⟨_, _, rfl⟩

theorem save_down (h : Down c n) : (c.save now c.toPitWords).2 = (c.freeze now c.toPitWords).2 := by
  have hnext : (c.freeze now c.toPitWords).1.nextN = 0 := by
    rw [show (c.freeze now c.toPitWords).1 = c from settle_none h.none_next]
    exact h.none_next
  simp only [save, hnext]
  rfl

/-- The counter brought back: the words saved, on the other run's clock. -/
theorem broughtBack_spec {gates : Fin 3 → Bool} (h : Down (p.counter i) n)
    (hh : (p.counter i).gate = false → Held (p.counter i) n) :
    let c' := (p.exec t (.suspend q gates t')).counter i
    Down c' n ∧ Held c' n ∧ c'.out = ((p.counter i).outNow t).2 ∧ c'.gate = gates i ∧
    c'.bcd = (p.counter i).bcd ∧
    c'.counter = ((p.counter i).save t (p.counter i).toPitWords).2.counter ∧
    c'.epoch = sub64 t' (nsForClocks c'.toPitWords.phase) := by
  obtain ⟨k, o, hw, ho, hk⟩ := @frozen_spec _ t _ h hh
  have hc : (p.exec t (.suspend q gates t')).counter i = PitCounter.restored
      { q.counter i with
        toPitWords := ((p.counter i).save t (p.counter i).toPitWords).2
        gate := gates i } t' := rfl
  dsimp only
  rw [hc, save_down h, hw]
  obtain ⟨l, b, hr⟩ := @restored_spec t' { q.counter i with
    toPitWords := { (p.counter i).toPitWords with counter := k, out := o }
    gate := gates i }
  rw [hr]
  exact ⟨⟨h.mode, h.loaded, h.initial, rfl, h.pos, h.le⟩, hk, ho, rfl, rfl, rfl, rfl⟩

theorem PlaceInv.suspend (h : PlaceInv i n r) {gates : Fin 3 → Bool}
    (hok : r.allowed i (t, .suspend q gates t')) :
    PlaceInv i n (r.step i (t, .suspend q gates t')) := by
  obtain ⟨ht, -, hle, hlt⟩ := hok
  obtain ⟨hdown, hheld, hout, -, -, -, hepoch⟩ := @broughtBack_spec _ t t' _ q _ gates h.down
    fun hg => (h.held hg).2
  exact placeInv_resumed hdown hheld hout (fun hh => h.high_step ht hh) rfl hepoch hle hlt

theorem PlaceInv.kept (h : PlaceInv i n r) (a : Nat × PitOp) (hok : r.allowed i a) :
    PlaceInv i n (r.step i a) := by
  obtain ⟨t, op⟩ := a
  by_cases hg : ∃ j high, op = .setGate j high
  · obtain ⟨j, high, rfl⟩ := hg
    exact h.setGate hok
  · by_cases hs : ∃ q gates now', op = .suspend q gates now'
    · obtain ⟨q, gates, now', rfl⟩ := hs
      exact h.suspend hok
    · have hsame : Same (r.timer.counter i) ((r.timer.exec t op).counter i) :=
        exec_same h.down hok.2.1 (fun j high he => hg ⟨j, high, he⟩)
          fun q gates now' he => hs ⟨q, gates, now', he⟩
      refine h.same hok.1 hsame ?_ rfl
      cases op with
      | suspend q gates now' => exact absurd ⟨q, gates, now', rfl⟩ hs
      | _ => rfl

/-! ## Any run -/

theorem load_mode0 {count : Nat} (hm : c.mode = 0) : (c.load count now).mode = 0 ∧
    (c.load count now).null = false ∧ (c.load count now).nextN = 0 ∧
    (c.load count now).counter = (c.load count now).initial ∧ (c.load count now).out = false ∧
    1 ≤ (c.load count now).initial := by
  have hset : (c.settle now).mode = 0 := by
    unfold settle
    split <;> exact hm
  have hpos : ∀ k, 1 ≤ if k = 0 then largest c.bcd else k := fun k => by
    split
    · exact largest_pos
    · omega
  have hnot : ¬ (((c.settle now).mode = 2 ∨ (c.settle now).mode = 3) ∧ (c.settle now).null = false ∧
      (c.settle now).gate = true ∧ (c.settle now).initial ≠ 0) := by
    rw [hset]
    simp
  unfold load
  dsimp only
  rw [if_neg hnot]
  exact ⟨hset, rfl, rfl, rfl, by rw [hset]; rfl, hpos _⟩

theorem PlaceInv.starts (h : r.Starts i n) : PlaceInv i n r := by
  obtain ⟨⟨c, count, hm, hc⟩, hn, hle, -, hhigh⟩ := h
  obtain ⟨hmode, hnull, hnext, hcounter, hout, hpos⟩ := @load_mode0 r.now _ count hm
  rw [← hc] at hmode hnull hnext hcounter hout hpos
  refine ⟨⟨hmode, hnull, hn, hnext, hn ▸ hpos, hle⟩, fun _ hh => ?_, fun _ => ⟨fun hh => ?_, ?_⟩⟩
  · rw [hhigh] at hh
    cases hh
  · rw [hhigh] at hh
    cases hh
  · exact fun _ => Nat.le_of_eq (hcounter.trans hn)

theorem place_inv (h : Lib.Reach (PitRun.Starts i · n) (PitRun.allowed i) (PitRun.step i) r) :
    PlaceInv i n r :=
  Lib.Reach.inv (P := PlaceInv i n) (fun _ hs => .starts hs) (fun _ a hs hok => hs.kept a hok) h

/-- A counter that goes on from held words shows the count held, less the clocks since. -/
theorem goes_on_count {e : Nat} (h : Down c n) (hh : Held c n) (hg : c.gate = true)
    (he : c.epoch = e) (hp : e = sub64 t (nsForClocks c.toPitWords.phase))
    (hle : nsForClocks 0x20000 ≤ t) (ht : t < U64) (hlt : t < t') :
    ∃ d, d ≤ clocksBetween t t' ∧ (c.countNow t').2 = shown c.bcd (wrap c.bcd c.counter d) := by
  obtain ⟨d, hclocks, hd⟩ := goes_on h hp hle ht hlt
  refine ⟨d, hd, ?_⟩
  rw [countNow_down h, hg, if_pos rfl, he, hclocks, wrap_phase h hh]

/-- A resume keeps the place at every later reading, and at its own only the place 0. -/
theorem resume_iff (h : Down c n) (hle : nsForClocks 0x20000 ≤ t) (ht : t < U64) (htt : t ≤ t') :
    c.toPitWords.phase ≤ clocksBetween (sub64 t (nsForClocks c.toPitWords.phase)) t' ↔
      t < t' ∨ c.toPitWords.phase = 0 := by
  have hmax := phase_le h
  have hns := Nat.le_trans (nsForClocks_mono hmax) hle
  rcases Nat.lt_or_ge t t' with hlt | hge
  · obtain ⟨d, hclocks, -⟩ := goes_on h rfl hle ht hlt
    rw [hclocks]
    exact ⟨fun _ => .inl hlt, fun _ => Nat.le_add_right _ _⟩
  · obtain rfl : t = t' := Nat.le_antisymm htt hge
    rcases Nat.eq_zero_or_pos c.toPitWords.phase with h0 | hpos
    · rw [h0]
      exact ⟨fun _ => .inr rfl, fun _ => Nat.zero_le _⟩
    · rw [clocks_at_resume hpos hmax hns ht]
      omega

/-- **Suspended counters keep their place.** The words frozen give the place back but for the
largest count of mode 0 with no clock gone. And in any run of a mode 0 counter whose readings move
on after a resume, an OUT once high stays high, a resume keeps the place, and the count then is the
one held less at most the clocks since. -/
theorem suspended_keeps_place (c : PitCounter) (now n : Nat) :
    (Counting c now n → (KeepsPlace c now n ↔ ¬ AtLargest c now n)) ∧
    ∀ (i : Fin 3) (n : Nat) (r : PitRun),
      Lib.Reach (PitRun.Starts i · n) (PitRun.allowed i) (PitRun.step i) r →
      (r.high = true → ∀ t, r.Later t → ((r.timer.counter i).outNow t).2 = true) ∧
      ((r.timer.counter i).gate = false →
        (∀ t, ((r.timer.counter i).countNow t).2 =
          shown (r.timer.counter i).bcd (r.timer.counter i).counter) ∧
        ∀ t t', r.allowed i (t, .setGate i true) → t ≤ t' →
          ((r.timer.counter i).toPitWords.phase ≤
              clocksBetween ((r.timer.counter i).setGate true t).epoch t' ↔
            t < t' ∨ (r.timer.counter i).toPitWords.phase = 0) ∧
          (t < t' → ∃ d, d ≤ clocksBetween t t' ∧
            (((r.timer.counter i).setGate true t).countNow t').2 =
              shown (r.timer.counter i).bcd
                (wrap (r.timer.counter i).bcd (r.timer.counter i).counter d))) ∧
      ∀ q gates t now' t', r.allowed i (t, .suspend q gates now') → gates i = true → now' < t' →
        ∃ d, d ≤ clocksBetween now' t' ∧
          (((r.timer.exec t (.suspend q gates now')).counter i).countNow t').2 =
            shown (r.timer.counter i).bcd (wrap (r.timer.counter i).bcd
              ((r.timer.counter i).save t (r.timer.counter i).toPitWords).2.counter d) := by
  refine ⟨fun h => frozen_keeps h, fun i n r hr => ?_⟩
  have h := place_inv hr
  refine ⟨fun hh t ht => h.out_high hh ht, fun hg => ⟨fun t => ?_, fun t t' hok htt => ?_⟩, ?_⟩
  · rw [countNow_down h.down, hg]
    rfl
  · obtain ⟨ht, -, hle⟩ := hok
    rw [setGate_high h.down hg]
    refine ⟨resume_iff h.down hle ht.2.2 htt, fun hlt => ?_⟩
    have hd : Down { r.timer.counter i with
        gate := true
        epoch := sub64 t (nsForClocks (r.timer.counter i).toPitWords.phase) } n :=
      ⟨h.down.mode, h.down.loaded, h.down.initial, h.down.none_next, h.down.pos, h.down.le⟩
    exact goes_on_count hd (h.held hg).2 rfl rfl rfl hle ht.2.2 hlt
  · intro q gates t now' t' hok hg hlt
    obtain ⟨-, -, hle, ht⟩ := hok
    obtain ⟨hdown, hheld, -, hgate, hbcd, hcounter, hepoch⟩ := @broughtBack_spec _ t now' _ q _ gates
      h.down fun hg => (h.held hg).2
    have hgo := goes_on_count hdown hheld (hgate.trans hg) rfl hepoch hle ht hlt
    rwa [hbcd, hcounter] at hgo

/-! ## Concrete counters -/

/-- A counter after a control word for a two-byte count, its GATE high. -/
def programmed (mode : Nat) : PitCounter :=
  ⟨⟨0, .none, 0, 0, 3, mode, false, true, mode != 0, 3⟩, true, 0, 0, 0, 0⟩

/-- A second of uptime. -/
def second : Nat := 1000000000

/-- A count of 1000, and the largest, written in mode 0. -/
def thousand : PitCounter := (programmed 0).load 1000 second

def largestCount : PitCounter := (programmed 0).load 0 second

/-- A count of 500 that waits for the end of a period of 1000 in mode 2. -/
def waitingCount : PitCounter := ((programmed 2).load 1000 second).load 500 (second + 251429)

def thousandTimer : I8254 := ⟨fun _ => thousand, 0, 0, I8254.zero_lt_second⟩

/-- A mode 3 count of 1001, with 900 clocks of its third period gone; and a mode 0 count of 1000 held
past its terminal count. -/
theorem suspended_keeps_place_odd :
    (((programmed 3).load 1001 second).freeze 3432300000
      ((programmed 3).load 1001 second).toPitWords).2.phase ≡
        clocksBetween second 3432300000 [MOD 1001] ∧
    ((((thousandTimer.exec (second + 838096) (.setGate 2 false)).exec (2 * second)
      (.setGate 2 true)).counter 2).outNow (2 * second + 1)).2 = true := by
  constructor
  · have hc : Counting ((programmed 3).load 1001 second) 3432300000 1001 :=
      ⟨by decide +kernel, .inr (.inr rfl), rfl, rfl, rfl, by decide, by decide, fun h => nomatch h⟩
    exact (((suspended_keeps_place _ _ _).1 hc).2 fun h => nomatch h.1).periodic (by decide)
  · have h0 : Lib.Reach (PitRun.Starts 2 · 1000) (PitRun.allowed 2) (PitRun.step 2)
        ⟨thousandTimer, second, false, false⟩ :=
      .start ⟨⟨programmed 0, 1000, rfl, rfl⟩, rfl, by decide, rfl, rfl⟩
    have h1 := h0.next (a := (second + 838096, .setGate 2 false))
      ⟨⟨by decide, fun h => (nomatch h), by decide⟩, id, by decide +kernel⟩
    have h2 := h1.next (a := (2 * second, .setGate 2 true))
      ⟨⟨by decide, fun h => by revert h; decide +kernel, by decide⟩, id, by decide +kernel⟩
    refine (((suspended_keeps_place thousand 0 1000).2 _ _ _ h2).1 (by decide +kernel) (2 * second + 1) ?_)
    exact ⟨by decide, fun _ => by decide, by decide⟩

/-- The largest count suspended at once has no place 0; OUT, high at the terminal count, is low at
the instant of a resume; the count then is one behind the one held; and a save in which a waiting
count takes over keeps the old initial count. -/
theorem suspended_loses_place :
    ((largestCount.freeze second largestCount.toPitWords).2.phase = 65536 ∧
      clocksBetween largestCount.epoch second = 0) ∧
    ((thousand.outNow (second + 838096)).2 = true ∧
      (((thousand.setGate false (second + 838096)).setGate true (2 * second)).outNow
        (2 * second)).2 = false) ∧
    (((thousand.setGate false (second + 335239)).countNow (2 * second)).2 = 600 ∧
      (((thousand.setGate false (second + 335239)).setGate true (2 * second)).countNow
        (2 * second)).2 = 601) ∧
    (waitingCount.save (second + 921906) waitingCount.toPitWords).2.phase = 600 ∧
      (waitingCount.settle (second + 921906)).initial = 500 ∧
      clocksBetween (waitingCount.settle (second + 921906)).epoch (second + 921906) = 100 := by
  decide +kernel

end Alphabox.Isa
