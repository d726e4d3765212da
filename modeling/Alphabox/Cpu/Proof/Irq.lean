import Alphabox.Cpu.Irq
import Alphabox.Lib.Reach

/-!
# A released line stays released, and a flush request is not forgotten

`count_down_irq` raises a line in two accesses, the exchange of its timer to zero and the `or` into
`eir`, and a release drops it in two, the `and` of `eir` and the exchange of the timer. A release
that falls between the processor's two finds a line that is not active; one that the processor's
two fall into clears `eir` too early. `Apart` leaves those moments out, and the calls of two devices
on one line that overlap; `LineInv` is the invariant of a line then.

`check_timers` also carries the flush request, and a release sets it from the timers alone.
`KeepsKick` leaves out a release that drops the kick of a request (`flush_request_kept`).
-/

namespace Alphabox.Cpu.Irq

open Function (update)

variable {n : Nat}

/-- The processor is in `count_down_irq` of the line. -/
def CpuPos.counting (p : CpuPos) (l : Line) : Prop :=
  match p with
  | .load l' _ | .swap l' _ _ | .orEir l' _ | .setInt l' _ | .setTimers l' _ => l' = l
  | _ => False

namespace IrqRun

/-! ## Counting down next to a release -/

/-- The steps under which a released line stays released: a device's call of a line begins when no
other is in progress, a release does not read `eir` between the processor's exchange and its raise,
and the processor does not win the exchange to zero between a release's read of `eir` and its
exchange of the timer. -/
def Apart (s : IrqRun n) : IrqOp n → Prop
  | .irqH _ l _ _ => ∀ d a, (s.dev d).call ≠ some (l, a)
  | .dev d => ∀ l delay, s.dev d = .loadEir l false delay → s.pos.raising l = false
  | .cpu spurious => ∀ l step t, s.pos = .swap l step t → s.cpu.irqHTimer l = t →
      spurious = false → t ≤ step →
      ∀ d, (∀ delay, s.dev d ≠ .loadTimer l false delay) ∧ s.dev d ≠ .andEir l ∧
        s.dev d ≠ .cancelTimer l
  | _ => True

/-- What a thread in a call of line `l` knows. -/
def DevOk (s : IrqRun n) (l : Line) (p : DevPos) : Prop :=
  match p with
  | .loadTimer l' false _ => l' = l → s.cpu.eir l = false ∧ s.pos.raising l = false
  | .storeTimer l' delay => l' = l → s.cpu.irqHTimer l = 0 ∧ delay ≠ 0
  | .andEir l' => l' = l → s.pos.raising l = false
  | .cancelTimer l' => l' = l → s.cpu.eir l = false ∧ s.pos.raising l = false
  | .clearTimers l' | .scan l' _ | .scanSet l' _ =>
    l' = l → s.cpu.eir l = false ∧ s.cpu.irqHTimer l = 0 ∧ s.pos.raising l = false
  | _ => True

/-- The invariant of a line. -/
structure LineInv (s : IrqRun n) (l : Line) : Prop where
  one : ∀ d d' a a', (s.dev d).call = some (l, a) → (s.dev d').call = some (l, a') → d = d'
  dev : ∀ d, s.DevOk l (s.dev d)
  released : s.released l = true →
    s.cpu.eir l = false ∧ s.cpu.irqHTimer l = 0 ∧ s.pos.raising l = false
  asserting : ∀ d, (s.dev d).call = some (l, true) → s.released l = false
  swap : ∀ step t, s.pos = .swap l step t → t ≠ 0
  count : s.armed l = s.raised l + s.cancelled l + min 1 (s.cpu.irqHTimer l) +
    (s.pos.raising l).toNat

section

variable {s s' : IrqRun n} {l : Line}

theorem devOk_of_call {p : DevPos} (h : ∀ a, p.call ≠ some (l, a)) : s.DevOk l p := by
  unfold DevOk
  split
  all_goals try trivial
  all_goals
    intro he
    subst he
    exact absurd rfl (h _)

/-- What a thread knows depends on the line's own state alone. -/
theorem DevOk.congr {p : DevPos} (h : s.DevOk l p) (he : s'.cpu.eir l = s.cpu.eir l)
    (ht : s'.cpu.irqHTimer l = s.cpu.irqHTimer l)
    (hr : s'.pos.raising l = s.pos.raising l) : s'.DevOk l p := by
  unfold DevOk at h ⊢
  rw [he, ht, hr]
  exact h

/-- Two runs agree on a line. -/
structure Same (s s' : IrqRun n) (l : Line) : Prop where
  eir : s'.cpu.eir l = s.cpu.eir l
  irqHTimer : s'.cpu.irqHTimer l = s.cpu.irqHTimer l
  raising : s'.pos.raising l = s.pos.raising l
  released : s'.released l = s.released l
  armed : s'.armed l = s.armed l
  raised : s'.raised l = s.raised l
  cancelled : s'.cancelled l = s.cancelled l

/-- A step of a call of another line, or of none. -/
theorem LineInv.other (h : LineInv s l) (hs : Same s s' l)
    (hdev : ∀ d, s'.dev d = s.dev d ∨ ∀ a, (s'.dev d).call ≠ some (l, a))
    (hswap : ∀ step t, s'.pos = .swap l step t → t ≠ 0) : LineInv s' l where
  one d d' a a' hd hd' := by
    rcases hdev d with he | hne
    · rcases hdev d' with he' | hne'
      · rw [he] at hd
        rw [he'] at hd'
        exact h.one d d' a a' hd hd'
      · exact absurd hd' (hne' a')
    · exact absurd hd (hne a)
  dev d := by
    rcases hdev d with he | hne
    · rw [he]
      exact (h.dev d).congr hs.eir hs.irqHTimer hs.raising
    · exact devOk_of_call hne
  released hr := by
    rw [hs.released] at hr
    rw [hs.eir, hs.irqHTimer, hs.raising]
    exact h.released hr
  asserting d hd := by
    rw [hs.released]
    rcases hdev d with he | hne
    · rw [he] at hd
      exact h.asserting d hd
    · exact absurd hd (hne true)
  swap := hswap
  count := by
    rw [hs.armed, hs.raised, hs.cancelled, hs.irqHTimer, hs.raising]
    exact h.count

/-- A step of the one call of this line. -/
theorem LineInv.own (h : LineInv s l) {d : Fin n} {a : Bool} (hc : (s.dev d).call = some (l, a))
    {p : DevPos} (hdev : s'.dev = update s.dev d p) (hpos : s'.pos = s.pos)
    (hcall : p.call = some (l, a) ∨ p.call = none) (hok : s'.DevOk l p)
    (hrel : s'.released l = true →
      s'.cpu.eir l = false ∧ s'.cpu.irqHTimer l = 0 ∧ s'.pos.raising l = false)
    (hass : a = true → s'.released l = s.released l)
    (hcount : s'.armed l = s'.raised l + s'.cancelled l + min 1 (s'.cpu.irqHTimer l) +
      (s'.pos.raising l).toNat) : LineInv s' l := by
  -- no other thread is in a call of this line
  have hothers : ∀ e, e ≠ d → ∀ b, (s'.dev e).call ≠ some (l, b) := by
    intro e hne b he
    rw [hdev, Function.update_of_ne hne] at he
    exact hne (h.one e d b a he hc)
  have hself : s'.dev d = p := by rw [hdev, Function.update_self]
  exact {
    one e e' b b' he he' := by
      by_cases hed : e = d
      · by_cases hed' : e' = d
        · rw [hed, hed']
        · exact absurd he' (hothers e' hed' b')
      · exact absurd he (hothers e hed b)
    dev e := by
      by_cases hed : e = d
      · rw [hed, hself]
        exact hok
      · exact devOk_of_call (hothers e hed)
    released := hrel
    asserting e he := by
      by_cases hed : e = d
      · rw [hed, hself] at he
        rcases hcall with hp | hp
        · rw [hp] at he
          obtain rfl : a = true := by simpa using he
          rw [hass rfl]
          exact h.asserting d hc
        · rw [hp] at he
          cases he
      · exact absurd he (hothers e hed true)
    swap := by
      rw [hpos]
      exact h.swap
    count := hcount }

/-! ### A device's access -/

theorem active_call (l : Line) (a : Bool) : (DevPos.active l a).call = some (l, a) := by
  cases a <;> rfl

theorem inactive_call (l : Line) (a : Bool) (delay : Nat) :
    (DevPos.inactive l a delay).call = some (l, a) ∨ (DevPos.inactive l a delay).call = none := by
  cases a with
  | false => exact .inr rfl
  | true =>
    unfold DevPos.inactive
    split
    · split
      · exact .inl rfl
      · exact .inl rfl
    · exact .inr rfl

theorem scanned_call (l i : Line) :
    (DevPos.scanned l i).call = some (l, false) ∨ (DevPos.scanned l i).call = none := by
  unfold DevPos.scanned
  split
  · exact .inl rfl
  · exact .inr rfl

/-- A thread's call is the same after an access, or over. -/
theorem devStep_call (c : IrqState) (p : DevPos) :
    (devStep c p).2.call = p.call ∨ (devStep c p).2.call = none := by
  cases p with
  | loadEir l a delay =>
    simp only [devStep]
    split
    · exact .inl (active_call l a)
    · exact .inl rfl
  | loadTimer l a delay =>
    simp only [devStep]
    split
    · exact .inl (active_call l a)
    · exact inactive_call l a delay
  | loadEirAgain l =>
    simp only [devStep]
    split
    · exact .inl rfl
    · exact .inr rfl
  | scan l i =>
    simp only [devStep]
    split
    · exact .inl rfl
    · exact scanned_call l i
  | scanSet l i => exact scanned_call l i
  | storeTimer | orEir | andEir | cancelTimer | clearTimers => exact .inl rfl
  | idle | setTimers | setInt | storeReq | setTimersReq => exact .inr rfl

/-- An access leaves the lines of other calls alone. -/
theorem devStep_frame {p : DevPos} (hp : ∀ a, p.call ≠ some (l, a)) (c : IrqState) :
    (devStep c p).1.eir l = c.eir l ∧ (devStep c p).1.irqHTimer l = c.irqHTimer l := by
  have hne : ∀ l' a, p.call = some (l', a) → l ≠ l' := by
    rintro l' a hc rfl
    exact hp a hc
  cases p with
  | storeTimer l' _ => exact ⟨rfl, Function.update_of_ne (hne l' _ rfl) _ _⟩
  | orEir l' => exact ⟨Function.update_of_ne (hne l' _ rfl) _ _, rfl⟩
  | andEir l' => exact ⟨Function.update_of_ne (hne l' _ rfl) _ _, rfl⟩
  | cancelTimer l' => exact ⟨rfl, Function.update_of_ne (hne l' _ rfl) _ _⟩
  | _ => exact ⟨rfl, rfl⟩

theorem devAccess_other (h : LineInv s l) {d : Fin n} (hd : ∀ a, (s.dev d).call ≠ some (l, a)) :
    LineInv (s.devAccess d) l := by
  obtain ⟨he, ht⟩ := devStep_frame hd s.cpu
  have hne : ∀ l' a, (s.dev d).call = some (l', a) → l ≠ l' := by
    rintro l' a hc rfl
    exact hd a hc
  have hsame : Same s (s.devAccess d) l := {
    eir := he
    irqHTimer := ht
    raising := rfl
    released := by simp [devAccess, hd false]
    armed := by
      have harm : (s.dev d).arms l = false := by
        unfold DevPos.arms
        split
        · rename_i l' delay hp
          exact beq_false_of_ne (hne l' true (by rw [hp]; rfl)).symm
        · rfl
      simp [devAccess, harm]
    raised := rfl
    cancelled := by
      have hcan : s.dev d ≠ .cancelTimer l := fun hp => hne l false (by rw [hp]; rfl) rfl
      simp [devAccess, hcan] }
  refine h.other hsame (fun e => ?_) h.swap
  by_cases hed : e = d
  · right
    intro a
    subst hed
    show (update s.dev e _ e).call ≠ some (l, a)
    rw [Function.update_self]
    rcases devStep_call s.cpu (s.dev e) with hc | hc
    · rw [hc]
      exact hd a
    · rw [hc]
      simp
  · exact .inl (Function.update_of_ne hed _ _)

/-- A thread that only reads the line, or other fields, and goes on to `p`. -/
theorem devAccess_goto (h : LineInv s l) {d : Fin n} {a : Bool} (hc : (s.dev d).call = some (l, a))
    {p : DevPos} (hp : (devStep s.cpu (s.dev d)).2 = p)
    (heir : (devStep s.cpu (s.dev d)).1.eir = s.cpu.eir)
    (htimer : (devStep s.cpu (s.dev d)).1.irqHTimer = s.cpu.irqHTimer)
    (hstore : (s.dev d).arms l = false) (hcancel : s.dev d ≠ .cancelTimer l) (hok : s.DevOk l p)
    (hidle : a = false → p = .idle →
      s.cpu.eir l = false ∧ s.cpu.irqHTimer l = 0 ∧ s.pos.raising l = false) :
    LineInv (s.devAccess d) l := by
  have he : (s.devAccess d).cpu.eir l = s.cpu.eir l := congrFun heir l
  have ht : (s.devAccess d).cpu.irqHTimer l = s.cpu.irqHTimer l := congrFun htimer l
  refine h.own hc (p := p) (by rw [← hp]; rfl) rfl ?_ (hok.congr he ht rfl) ?_ ?_ ?_
  · rw [← hp, ← hc]
    exact devStep_call s.cpu (s.dev d)
  · intro hr
    rw [he, ht]
    simp only [devAccess, hp, Bool.or_eq_true, decide_eq_true_eq] at hr
    rcases hr with hr | ⟨hcall, hi⟩
    · exact h.released hr
    · rw [hc] at hcall
      exact hidle (by simpa using hcall) hi
  · rintro rfl
    simp [devAccess, hc]
  · rw [ht]
    simpa [devAccess, hstore, hcancel] using h.count

/-- The access of the one call of this line. -/
theorem devAccess_own (h : LineInv s l) {d : Fin n} {a : Bool}
    (hc : (s.dev d).call = some (l, a)) (hok : s.Apart (.dev d)) : LineInv (s.devAccess d) l := by
  have hdev := h.dev d
  have hcount := h.count
  have hapart : ∀ l delay, s.dev d = .loadEir l false delay → s.pos.raising l = false := hok
  have hass : a = true → s.released l = false := fun ha => h.asserting d (ha ▸ hc)
  cases hp : s.dev d with
  | idle | storeReq | setTimersReq =>
    rw [hp] at hc
    cases hc
  | loadEir l' a' delay =>
    have hcall := hc
    rw [hp] at hcall
    cases hcall
    -- a release that goes on has seen that the processor is not about to raise the line
    cases he : s.cpu.eir l with
    | true =>
      refine devAccess_goto h hc (p := .active l a) (by simp [hp, devStep, he]) (by rw [hp]; rfl)
        (by rw [hp]; rfl) (by rw [hp]; rfl) (by simp [hp]) ?_ ?_
      · cases a with
        | true => exact trivial
        | false => exact fun _ => hapart l delay hp
      · rintro rfl hi
        cases hi
    | false =>
      refine devAccess_goto h hc (p := .loadTimer l a delay) (by simp [hp, devStep, he])
        (by rw [hp]; rfl) (by rw [hp]; rfl) (by rw [hp]; rfl) (by simp [hp]) ?_ ?_
      · cases a with
        | true => exact trivial
        | false => exact fun _ => ⟨he, hapart l delay hp⟩
      · intro _ hi
        cases hi
  | loadTimer l' a' delay =>
    have hcall := hc
    rw [hp] at hcall hdev
    cases hcall
    by_cases ht : s.cpu.irqHTimer l = 0
    · refine devAccess_goto h hc (p := .inactive l a delay) (by simp [hp, devStep, ht])
        (by rw [hp]; rfl) (by rw [hp]; rfl) (by rw [hp]; rfl) (by simp [hp]) ?_ ?_
      · cases a with
        | false => exact trivial
        | true =>
          by_cases hz : delay = 0
          · simp [DevPos.inactive, hz, DevOk]
          · simp [DevPos.inactive, hz, DevOk, ht]
      · rintro rfl _
        exact ⟨(hdev rfl).1, ht, (hdev rfl).2⟩
    · refine devAccess_goto h hc (p := .active l a) (by simp [hp, devStep, ht]) (by rw [hp]; rfl)
        (by rw [hp]; rfl) (by rw [hp]; rfl) (by simp [hp]) ?_ ?_
      · cases a with
        | true => exact trivial
        | false => exact fun _ => (hdev rfl).2
      · rintro rfl hi
        cases hi
  | setTimers l' =>
    have hcall := hc
    rw [hp] at hcall
    cases hcall
    exact devAccess_goto h hc (p := .idle) (by rw [hp]; rfl) (by rw [hp]; rfl) (by rw [hp]; rfl)
      (by rw [hp]; rfl) (by simp [hp]) trivial (fun ha => by cases ha)
  | setInt l' =>
    have hcall := hc
    rw [hp] at hcall
    cases hcall
    exact devAccess_goto h hc (p := .idle) (by rw [hp]; rfl) (by rw [hp]; rfl) (by rw [hp]; rfl)
      (by rw [hp]; rfl) (by simp [hp]) trivial (fun ha => by cases ha)
  | loadEirAgain l' =>
    have hcall := hc
    rw [hp] at hcall
    cases hcall
    refine devAccess_goto h hc rfl (by rw [hp]; rfl) (by rw [hp]; rfl) (by rw [hp]; rfl)
      (by simp [hp]) ?_ (fun ha => by cases ha)
    simp only [hp, devStep]
    split
    · exact trivial
    · exact trivial
  | clearTimers l' =>
    have hcall := hc
    rw [hp] at hcall hdev
    cases hcall
    exact devAccess_goto h hc (p := .scan l 0) (by rw [hp]; rfl) (by rw [hp]; rfl)
      (by rw [hp]; rfl) (by rw [hp]; rfl) (by simp [hp]) hdev (fun _ hi => by cases hi)
  | scan l' i =>
    have hcall := hc
    rw [hp] at hcall hdev
    cases hcall
    refine devAccess_goto h hc rfl (by rw [hp]; rfl) (by rw [hp]; rfl) (by rw [hp]; rfl)
      (by simp [hp]) ?_ (fun _ _ => hdev rfl)
    simp only [hp, devStep, DevPos.scanned]
    split
    · exact hdev
    · split
      · exact hdev
      · exact trivial
  | scanSet l' i =>
    have hcall := hc
    rw [hp] at hcall hdev
    cases hcall
    refine devAccess_goto h hc rfl (by rw [hp]; rfl) (by rw [hp]; rfl) (by rw [hp]; rfl)
      (by simp [hp]) ?_ (fun _ _ => hdev rfl)
    simp only [hp, devStep, DevPos.scanned]
    split
    · exact hdev
    · exact trivial
  | storeTimer l' delay =>
    have hcall := hc
    rw [hp] at hcall hdev
    cases hcall
    -- the timer was zero, so this is one delay more
    obtain ⟨ht, hz⟩ := hdev rfl
    refine h.own hc (p := .setTimers l) (by simp [devAccess, hp, devStep]) rfl (.inl rfl) trivial
      ?_ ?_ ?_
    · simp [devAccess, hp, DevPos.call, hass rfl]
    · simp [devAccess, hp, DevPos.call]
    · have hnew : min 1 delay = 1 := by omega
      rw [ht] at hcount
      simp [devAccess, hp, devStep, DevPos.arms, hnew, hcount]
      omega
  | orEir l' =>
    have hcall := hc
    rw [hp] at hcall
    cases hcall
    refine h.own hc (p := .setInt l) (by simp [devAccess, hp, devStep]) rfl (.inl rfl) trivial
      ?_ ?_ ?_
    · simp [devAccess, hp, DevPos.call, hass rfl]
    · simp [devAccess, hp, DevPos.call]
    · simpa [devAccess, hp, devStep, DevPos.arms] using hcount
  | andEir l' =>
    have hcall := hc
    rw [hp] at hcall hdev
    cases hcall
    have hraise := hdev rfl
    refine h.own hc (p := .cancelTimer l) (by simp [devAccess, hp, devStep]) rfl (.inl rfl) ?_
      ?_ ?_ ?_
    · intro _
      exact ⟨by simp [devAccess, hp, devStep], hraise⟩
    · intro hr
      have hr' : s.released l = true := by simpa [devAccess, hp, DevPos.call, devStep] using hr
      refine ⟨by simp [devAccess, hp, devStep], ?_, hraise⟩
      simpa [devAccess, hp, devStep] using (h.released hr').2.1
    · intro ha
      cases ha
    · simpa [devAccess, hp, devStep, DevPos.arms] using hcount
  | cancelTimer l' =>
    have hcall := hc
    rw [hp] at hcall hdev
    cases hcall
    obtain ⟨he, hraise⟩ := hdev rfl
    -- from here on the line is quiet: the release may return
    have hquiet : (s.devAccess d).cpu.eir l = false ∧ (s.devAccess d).cpu.irqHTimer l = 0 ∧
        (s.devAccess d).pos.raising l = false := by
      refine ⟨?_, ?_, hraise⟩
      · simpa [devAccess, hp, devStep] using he
      · simp [devAccess, hp, devStep]
    refine h.own hc (p := .clearTimers l) (by simp [devAccess, hp, devStep]) rfl (.inl rfl)
      (fun _ => hquiet) (fun _ => hquiet) (fun ha => by cases ha) ?_
    -- a timer still running is counted as cancelled
    by_cases ht : s.cpu.irqHTimer l = 0
    · rw [ht] at hcount
      simpa [devAccess, hp, devStep, DevPos.arms, ht] using hcount
    · have hold : min 1 (s.cpu.irqHTimer l) = 1 := by omega
      rw [hold] at hcount
      simp [devAccess, hp, devStep, DevPos.arms, ht, hcount]
      omega

/-! ### The processor's access -/

theorem counted_raising (l' : Line) (st : Nat) : (CpuPos.counted l' st).raising l = false := by
  unfold CpuPos.counted
  split <;> rfl

theorem loop_raising (l' : Line) (st t : Nat) : (CpuPos.loop l' st t).raising l = false := by
  unfold CpuPos.loop
  split
  · rfl
  · exact counted_raising l' st

theorem start_raising (w : Work) : (CpuPos.start w).raising l = false := by
  cases w <;> rfl

theorem looked_raising (l' : Line) (b : Bool) : (CpuPos.looked l' b).raising l = false := by
  unfold CpuPos.looked
  split
  · rfl
  · split <;> rfl

theorem loop_swap {l' : Line} {st t st' t' : Nat} (h : CpuPos.loop l' st t = .swap l st' t') :
    t' ≠ 0 := by
  unfold CpuPos.loop at h
  split at h
  · rename_i ht
    cases h
    exact ht
  · unfold CpuPos.counted at h
    split at h <;> cases h

/-- Of the places a processor can go to, only the loop of `count_down_irq` is at an exchange. -/
theorem cpuStep_swap {p : CpuPos} {c : IrqState} {spurious : Bool} {st t : Nat}
    (h : (cpuStep c spurious p).2 = .swap l st t) : t ≠ 0 := by
  cases p with
  | load l' st' => exact loop_swap h
  | swap l' st' t' =>
    simp only [cpuStep] at h
    split at h
    · split at h
      · cases h
      · rename_i hnext
        dsimp only at h
        split at h <;> cases h
    · exact loop_swap h
  | setInt l' st' | setTimers l' st' =>
    simp only [cpuStep, CpuPos.counted] at h
    split at h <;> cases h
  | honour w =>
    simp only [cpuStep] at h
    split at h
    · cases h
    · cases w <;> cases h
  | flush w => cases w <;> cases h
  | look l' b =>
    simp only [cpuStep, CpuPos.looked] at h
    split at h
    · cases h
    · split at h <;> cases h
  | idle | clearTimers | orEir | lookSet => cases h

/-- A processor's access that leaves the line as it was. -/
theorem cpuAccess_same (h : LineInv s l) {spurious : Bool}
    (he : (cpuStep s.cpu spurious s.pos).1.eir l = s.cpu.eir l)
    (ht : (cpuStep s.cpu spurious s.pos).1.irqHTimer l = s.cpu.irqHTimer l)
    (hr : s.pos.raising l = false) (hr' : (cpuStep s.cpu spurious s.pos).2.raising l = false) :
    LineInv (s.cpuAccess spurious) l := by
  refine h.other ⟨he, ht, ?_, rfl, rfl, ?_, rfl⟩ (fun _ => .inl rfl) fun st t hpos => ?_
  · rw [hr]
    exact hr'
  · simp [cpuAccess, hr]
  · exact cpuStep_swap hpos

/-- A processor's access of the line that no thread relies on. -/
theorem cpuAccess_own (h : LineInv s l) {spurious : Bool}
    (hdev : ∀ d, (s.cpuAccess spurious).DevOk l (s.dev d)) (hrel : s.released l = false)
    (hcount : s.armed l = s.raised l + (s.pos.raising l).toNat + s.cancelled l +
      min 1 ((s.cpuAccess spurious).cpu.irqHTimer l) +
      ((s.cpuAccess spurious).pos.raising l).toNat) : LineInv (s.cpuAccess spurious) l where
  one := h.one
  dev := hdev
  released hr := by
    have hr' : s.released l = true := hr
    rw [hrel] at hr'
    cases hr'
  asserting := h.asserting
  swap _ _ hpos := cpuStep_swap hpos
  count := hcount

/-- While the line is being raised only a thread about to set its timer knows anything of it. -/
theorem DevOk.raised {p : DevPos} (h : s.DevOk l p) (hr : s.pos.raising l = true)
    (ht : s'.cpu.irqHTimer l = s.cpu.irqHTimer l) : s'.DevOk l p := by
  unfold DevOk at h ⊢
  rw [hr] at h
  rw [ht]
  split at h
  all_goals try trivial
  all_goals
    intro he
    have := h he
    simp_all

/-- A thread that knows nothing of a line with a timer set, but what the processor keeps. -/
theorem DevOk.counted {p : DevPos} (h : s.DevOk l p) (ht : s.cpu.irqHTimer l ≠ 0)
    (he : s'.cpu.eir l = s.cpu.eir l) (hr : s.pos.raising l = false)
    (hkeep : s'.pos.raising l = true →
      (∀ delay, p ≠ .loadTimer l false delay) ∧ p ≠ .andEir l ∧ p ≠ .cancelTimer l) :
    s'.DevOk l p := by
  cases hr' : s'.pos.raising l with
  | false =>
    unfold DevOk at h ⊢
    rw [hr] at h
    rw [he, hr']
    split at h
    all_goals try trivial
    all_goals
      intro hl
      have := h hl
      simp_all
  | true =>
    obtain ⟨h1, h2, h3⟩ := hkeep hr'
    unfold DevOk at h ⊢
    split at h
    all_goals try trivial
    all_goals
      intro hl
      have := h hl
      simp_all

theorem cpuAccess_inv (h : LineInv s l) {spurious : Bool} (hok : s.Apart (.cpu spurious)) :
    LineInv (s.cpuAccess spurious) l := by
  cases hp : s.pos with
  | idle | clearTimers | lookSet =>
    exact cpuAccess_same h (by rw [hp]; rfl) (by rw [hp]; rfl) (by rw [hp]; rfl) (by rw [hp]; rfl)
  | honour w =>
    refine cpuAccess_same h (by rw [hp]; rfl) (by rw [hp]; rfl) (by rw [hp]; rfl) ?_
    simp only [hp, cpuStep]
    split
    · rfl
    · exact start_raising w
  | flush w =>
    refine cpuAccess_same h (by rw [hp]; rfl) (by rw [hp]; rfl) (by rw [hp]; rfl) ?_
    simp only [hp, cpuStep]
    exact start_raising w
  | look l' b =>
    refine cpuAccess_same h (by rw [hp]; rfl) (by rw [hp]; rfl) (by rw [hp]; rfl) ?_
    simp only [hp, cpuStep]
    exact looked_raising l' _
  | load l' st =>
    refine cpuAccess_same h (by rw [hp]; rfl) (by rw [hp]; rfl) (by rw [hp]; rfl) ?_
    simp only [hp, cpuStep]
    exact loop_raising l' st _
  | setInt l' st =>
    refine cpuAccess_same h (by rw [hp]; rfl) (by rw [hp]; rfl) (by rw [hp]; rfl) ?_
    simp only [hp, cpuStep]
    exact counted_raising l' st
  | setTimers l' st =>
    refine cpuAccess_same h (by rw [hp]; rfl) (by rw [hp]; rfl) (by rw [hp]; rfl) ?_
    simp only [hp, cpuStep]
    exact counted_raising l' st
  | orEir l' st =>
    by_cases hl : l' = l
    · subst hl
      have hr : s.pos.raising l' = true := by simp [hp, CpuPos.raising]
      -- a released line is not being raised, so this one has not been released
      have hrel : s.released l' = false := by
        by_contra hne
        have := (h.released (by simpa using hne)).2.2
        rw [hr] at this
        cases this
      refine cpuAccess_own h (fun d => ?_) hrel ?_
      · exact (h.dev d).raised hr (by simp [cpuAccess, hp, cpuStep])
      · have hcount := h.count
        rw [hr] at hcount ⊢
        simp [cpuAccess, hp, cpuStep, CpuPos.raising]
        simp at hcount
        omega
    · have hne : l ≠ l' := fun he => hl he.symm
      refine cpuAccess_same h ?_ (by rw [hp]; rfl) ?_ (by rw [hp]; rfl)
      · rw [hp]
        exact Function.update_of_ne hne _ _
      · rw [hp]
        exact beq_false_of_ne hl
  | swap l' st t =>
    have hr : s.pos.raising l = false := by rw [hp]; rfl
    -- an exchange that is lost, or fails for no reason, changes no line
    by_cases hlose : ¬(s.cpu.irqHTimer l' = t ∧ spurious = false)
    · refine cpuAccess_same h ?_ ?_ hr ?_
      all_goals simp only [hp, cpuStep, hlose, if_false]
      exact loop_raising l' st _
    have hwin := not_not.mp hlose
    by_cases hl : l' = l
    · subst hl
      have hz : s.cpu.irqHTimer l' ≠ 0 := by
        rw [hwin.1]
        exact h.swap st t hp
      have hrel : s.released l' = false := by
        by_contra hne
        exact hz (h.released (by simpa using hne)).2.1
      refine cpuAccess_own h (fun d => ?_) hrel ?_
      · -- the exchange to zero is kept apart from a release
        refine (h.dev d).counted hz ?_ hr fun hraise => ?_
        · simp [cpuAccess, hp, cpuStep, hwin]
        · have hle : t ≤ st := by
            by_contra hgt
            have hnext : ¬t - st = 0 := by omega
            simp [cpuAccess, hp, cpuStep, hwin, hgt, hnext, CpuPos.raising] at hraise
          exact hok l' st t hp hwin.1 hwin.2 hle d
      · have hcount := h.count
        have hold : min 1 (s.cpu.irqHTimer l') = 1 := by omega
        rw [hold, hr] at hcount
        rw [hr]
        by_cases hle : t ≤ st
        · simp [cpuAccess, hp, cpuStep, hwin, hle, CpuPos.raising]
          simpa using hcount
        · have hnext : ¬t - st = 0 := by omega
          have hmin : min 1 (t - st) = 1 := by omega
          simp [cpuAccess, hp, cpuStep, hwin, hle, hnext, hmin, CpuPos.raising]
          simpa using hcount
    · have hne : l ≠ l' := fun he => hl he.symm
      refine cpuAccess_same h ?_ ?_ hr ?_
      · simp [hp, cpuStep, hwin]
      · simp [hp, cpuStep, hwin, hne]
      · simp only [hp, cpuStep, hwin, and_self, if_true]
        generalize (if t ≤ st then 0 else t - st) = next
        split
        · exact beq_false_of_ne hl
        · rfl

/-! ### Runs -/

/-- A call of the line begins, with no other in progress. -/
theorem irqH_inv (h : LineInv s l) {d : Fin n} (a : Bool) (delay : Nat)
    (hfree : ∀ e b, (s.dev e).call ≠ some (l, b)) :
    LineInv { s with
      dev := update s.dev d (.loadEir l a delay)
      released := if a then update s.released l false else s.released } l := by
  have hothers : ∀ e b, e ≠ d →
      (update s.dev d (DevPos.loadEir l a delay) e).call ≠ some (l, b) := by
    intro e b hne
    rw [Function.update_of_ne hne]
    exact hfree e b
  exact {
    one e e' b b' he he' := by
      by_cases hed : e = d
      · by_cases hed' : e' = d
        · rw [hed, hed']
        · exact absurd he' (hothers e' b' hed')
      · exact absurd he (hothers e b hed)
    dev e := by
      by_cases hed : e = d
      · subst hed
        dsimp only
        rw [Function.update_self]
        exact trivial
      · exact devOk_of_call fun b => hothers e b hed
    released hr := by
      cases a with
      | true => simp at hr
      | false => exact h.released hr
    asserting e he := by
      by_cases hed : e = d
      · subst hed
        dsimp only at he
        rw [Function.update_self] at he
        obtain rfl : a = true := by simpa [DevPos.call] using he
        simp
      · exact absurd he (hothers e true hed)
    swap := h.swap
    count := h.count }

theorem lineInv_step (op : IrqOp n) (h : LineInv s l) (hok : s.Apart op) :
    LineInv (s.step op) l := by
  cases op with
  | dev d =>
    by_cases hd : ∃ a, (s.dev d).call = some (l, a)
    · obtain ⟨a, hc⟩ := hd
      exact devAccess_own h hc hok
    · exact devAccess_other h fun a hc => hd ⟨a, hc⟩
  | cpu spurious => exact cpuAccess_inv h hok
  | execute st =>
    simp only [step]
    split
    · rename_i hp
      exact h.other ⟨rfl, rfl, by rw [hp.1]; rfl, rfl, rfl, rfl, rfl⟩ (fun _ => .inl rfl)
        fun _ _ hs => by cases hs
    · exact h
  | quiesce =>
    simp only [step]
    split
    · rename_i hp
      exact h.other ⟨rfl, rfl, by rw [hp.1]; rfl, rfl, rfl, rfl, rfl⟩ (fun _ => .inl rfl)
        fun _ _ hs => by cases hs
    · exact h
  | honourAtMb =>
    simp only [step]
    split
    · rename_i hp
      exact h.other ⟨rfl, rfl, by rw [hp]; rfl, rfl, rfl, rfl, rfl⟩ (fun _ => .inl rfl)
        fun _ _ hs => by cases hs
    · exact h
  | requestDpcFlush d =>
    simp only [step]
    split
    · refine h.other ⟨rfl, rfl, rfl, rfl, rfl, rfl, rfl⟩ (fun e => ?_) h.swap
      by_cases hed : e = d
      · subst hed
        right
        simp [DevPos.call]
      · exact .inl (Function.update_of_ne hed _ _)
    · exact h
  | irqH d l' a delay =>
    simp only [step]
    split
    · -- a call of another line leaves this one alone
      by_cases hl : l' = l
      · subst hl
        exact irqH_inv h a delay hok
      · have hne : l ≠ l' := fun he => hl he.symm
        refine h.other ⟨rfl, rfl, rfl, ?_, rfl, rfl, rfl⟩ (fun e => ?_) h.swap
        · dsimp only
          split
          · exact Function.update_of_ne hne _ _
          · rfl
        · by_cases hed : e = d
          · subst hed
            right
            simp [DevPos.call, hl]
          · exact .inl (Function.update_of_ne hed _ _)
    · exact h

theorem lineInv_start (h : Start s) (l : Line) : LineInv s l where
  one d _ _ _ hd := by
    rw [h.dev d] at hd
    cases hd
  dev d := by
    rw [h.dev d]
    exact trivial
  released hr := by
    rw [h.released l] at hr
    cases hr
  asserting d hd := by
    rw [h.dev d] at hd
    cases hd
  swap st t hp := by
    rw [h.pos] at hp
    cases hp
  count := by
    rw [h.armed, h.raised, h.cancelled, h.irqHTimer, h.pos]
    rfl

end

/-- What the interrupt lines are for: a released line is low once the processor has finished
counting it down, each delay set is still running, is being raised, was raised or was cancelled, and
a count-down that nobody disturbs lowers the timer, raising the line when it reaches zero. -/
structure LineOk (s : IrqRun n) (l : Line) : Prop where
  released : s.released l = true → ¬s.pos.counting l →
    s.cpu.eir l = false ∧ s.cpu.irqHTimer l = 0
  once : s.armed l = s.raised l + s.cancelled l + min 1 (s.cpu.irqHTimer l) +
    (s.pos.raising l).toNat
  lowers : ∀ st, s.pos = .load l st → s.cpu.irqHTimer l ≠ 0 →
    let s' := ((s.step (.cpu false)).step (.cpu false)).step (.cpu false)
    s'.cpu.irqHTimer l = s.cpu.irqHTimer l - st ∧
      (s.cpu.irqHTimer l ≤ st → s'.cpu.eir l = true ∧ s'.raised l = s.raised l + 1)

/-- A count-down that nobody disturbs. -/
theorem countDown_lowers {s : IrqRun n} {l : Line} {st : Nat} (hp : s.pos = .load l st)
    (ht : s.cpu.irqHTimer l ≠ 0) :
    let s' := ((s.step (.cpu false)).step (.cpu false)).step (.cpu false)
    s'.cpu.irqHTimer l = s.cpu.irqHTimer l - st ∧
      (s.cpu.irqHTimer l ≤ st → s'.cpu.eir l = true ∧ s'.raised l = s.raised l + 1) := by
  by_cases hle : s.cpu.irqHTimer l ≤ st
  · have hsub : s.cpu.irqHTimer l - st = 0 := by omega
    simp [step, cpuAccess, hp, cpuStep, CpuPos.loop, ht, hle, hsub, CpuPos.raising]
  · have hsub : ¬s.cpu.irqHTimer l - st = 0 := by omega
    simp [step, cpuAccess, hp, cpuStep, CpuPos.loop, ht, hle, hsub]

/-- In every run that keeps the processor's raise and a release apart, a released line stays
released and a delayed line is raised exactly once. -/
theorem released_line_stays {s : IrqRun n} (h : Lib.Reach Start Apart step s) (l : Line) :
    LineOk s l := by
  have hinv : LineInv s l :=
    Lib.Reach.inv (P := fun s => LineInv s l) (fun s hs => lineInv_start hs l)
      (fun _ op hP hok => lineInv_step op hP hok) h
  exact {
    released := fun hr _ => ⟨(hinv.released hr).1, (hinv.released hr).2.1⟩
    once := hinv.count
    lowers := fun _ hp ht => countDown_lowers hp ht }

/-- A machine at power-up. -/
def powerUp : IrqRun n where
  cpu := ⟨fun _ => false, fun _ => 0, false, false, false⟩
  pos := .idle
  dev := fun _ => .idle
  released := fun _ => false
  armed := fun _ => 0
  raised := fun _ => 0
  cancelled := fun _ => 0
  flushes := 0

theorem powerUp_start : Start (powerUp : IrqRun n) :=
  ⟨fun _ => rfl, fun _ => rfl, rfl, rfl, fun _ => rfl, fun _ => rfl, fun _ => rfl, fun _ => rfl,
    fun _ => rfl⟩

/-- Line 1 is asserted with the chipset's delay. -/
def assertDelayed : List (IrqOp 1) := [.irqH 0 1 true 100, .dev 0, .dev 0, .dev 0, .dev 0]

/-- The delayed line is released, by a whole call, before the processor has looked at it. -/
def releaseIt : List (IrqOp 1) :=
  assertDelayed ++ .irqH 0 1 false 0 :: List.replicate 11 (.dev 0)

theorem released_line_stays_released :
    (releaseIt.foldl step powerUp).released 1 = true ∧
      (releaseIt.foldl step powerUp).cancelled 1 = 1 ∧ LineOk (releaseIt.foldl step powerUp) 1 := by
  refine ⟨rfl, rfl, released_line_stays ((Lib.Reach.start powerUp_start).run releaseIt ?_) 1⟩
  refine ⟨fun _ _ => by simp [powerUp, DevPos.call], fun _ _ _ => rfl, fun _ _ _ => rfl,
    fun _ _ _ => rfl, fun _ _ _ => rfl, fun d a => ?_, fun _ _ _ => rfl, fun _ _ _ => rfl,
    fun _ _ _ => rfl, fun _ _ _ => rfl, fun _ _ _ => rfl, fun _ _ _ => rfl, fun _ _ _ => rfl,
    fun _ _ _ => rfl, fun _ _ _ => rfl, fun _ _ _ => rfl, fun _ _ _ => rfl, trivial⟩
  rw [Subsingleton.elim d 0]
  exact fun hc => nomatch hc

/-- A timer check of the interpreter with line 1 counting. -/
def checkTimers : List (IrqOp 1) := .execute 32 :: List.replicate 10 (.cpu false)

/-- The processor brings the timer to zero, the device releases the line, and the processor goes
on. -/
def releaseInRaise : List (IrqOp 1) :=
  assertDelayed ++ checkTimers ++ checkTimers ++ checkTimers ++
    .execute 32 :: List.replicate 5 (.cpu false) ++ [.irqH 0 1 false 0, .dev 0, .dev 0] ++
    [.cpu false, .cpu false]

/-- A release between the processor's exchange to zero and its raise is lost. -/
theorem released_line_raised : ¬∀ s : IrqRun 1,
    Lib.Reach Start (fun _ _ => True) step s → ∀ l, s.LineOk l := by
  intro hall
  have hreach : Lib.Reach Start (fun _ _ => True) step (releaseInRaise.foldl step powerUp) :=
    (Lib.Reach.start powerUp_start).foldl releaseInRaise fun _ _ _ => trivial
  have hdone : ¬(releaseInRaise.foldl step powerUp).pos.counting 1 := by
    show ¬(2 : Line) = 1
    decide
  have hlow := ((hall _ hreach 1).released rfl hdone).1
  have hhigh : (releaseInRaise.foldl step powerUp).cpu.eir 1 = true := rfl
  rw [hhigh] at hlow
  cases hlow

/-! ## The flush request -/

/-- The steps under which a flush request is kept: a release does not clear `check_timers` while a
request is pending that nobody is about to kick for or honour. -/
def KeepsKick (s : IrqRun n) : IrqOp n → Prop
  | .dev d => (∃ l, s.dev d = .clearTimers l) → s.cpu.dpcFlushReq = true →
      (∃ w, s.pos = .honour w) ∨ ∃ e, s.dev e = .setTimersReq
  | _ => True

/-- A pending request is about to be seen, and the next timer check flushes. -/
structure FlushKept (s : IrqRun n) : Prop where
  kicked : s.cpu.dpcFlushReq = true → (∀ w, s.pos ≠ .honour w) →
    s.cpu.checkTimers = true ∨ ∃ d, s.dev d = .setTimersReq
  flushed : s.cpu.dpcFlushReq = true → s.cpu.checkTimers = true → s.pos = .idle → ∀ st,
    let s' := (((s.step (.execute st)).step (.cpu false)).step (.cpu false)).step (.cpu false)
    s'.flushes = s.flushes + 1 ∧ s'.cpu.dpcFlushReq = false

/-- The request is pending only where the processor is about to honour it, or is kicked to. -/
def KickInv (s : IrqRun n) : Prop :=
  s.cpu.dpcFlushReq = true → (∃ w, s.pos = .honour w) ∨ s.cpu.checkTimers = true ∨
    ∃ d, s.dev d = .setTimersReq

section

variable {s : IrqRun n}

/-- A device's access but the request's keeps who is about to kick. -/
theorem kickInv_dev (h : KickInv s) (d : Fin n) (hok : s.KeepsKick (.dev d)) :
    KickInv (s.devAccess d) := by
  intro hreq
  by_cases hset : (s.devAccess d).cpu.checkTimers = true
  · exact .inr (.inl hset)
  cases hp : s.dev d with
  | storeReq =>
    refine .inr (.inr ⟨d, ?_⟩)
    simp [devAccess, hp, devStep]
  | setTimers l | setTimersReq | scanSet l i => simp [devAccess, hp, devStep] at hset
  | clearTimers l =>
    have hreq' : s.cpu.dpcFlushReq = true := by simpa [devAccess, hp, devStep] using hreq
    rcases hok ⟨l, hp⟩ hreq' with hw | ⟨e, he⟩
    · exact .inl hw
    · have hne : e ≠ d := by
        rintro rfl
        rw [hp] at he
        cases he
      exact .inr (.inr ⟨e, (Function.update_of_ne hne _ _).trans he⟩)
  | _ =>
    have hreq' : s.cpu.dpcFlushReq = true := by simpa [devAccess, hp, devStep] using hreq
    rcases h hreq' with hw | hs | ⟨e, he⟩
    · exact .inl hw
    · exact absurd (by simpa [devAccess, hp, devStep] using hs) hset
    · have hne : e ≠ d := by
        rintro rfl
        rw [hp] at he
        cases he
      exact .inr (.inr ⟨e, (Function.update_of_ne hne _ _).trans he⟩)

theorem kickInv_cpu (h : KickInv s) (spurious : Bool) : KickInv (s.cpuAccess spurious) := by
  intro hreq
  cases hp : s.pos with
  | clearTimers w =>
    left
    exact ⟨w, by simp [cpuAccess, hp, cpuStep]⟩
  | honour w => simp [cpuAccess, hp, cpuStep] at hreq
  | setTimers l st | lookSet =>
    right
    left
    simp [cpuAccess, hp, cpuStep]
  | swap l st t =>
    have hreq' : s.cpu.dpcFlushReq = true := by
      simp only [cpuAccess, hp, cpuStep] at hreq
      split at hreq <;> exact hreq
    right
    rcases h hreq' with ⟨w, hw⟩ | hs | he
    · rw [hp] at hw
      cases hw
    · left
      simp only [cpuAccess, hp, cpuStep]
      split <;> exact hs
    · exact .inr he
  | _ =>
    have hreq' : s.cpu.dpcFlushReq = true := by simpa [cpuAccess, hp, cpuStep] using hreq
    right
    rcases h hreq' with ⟨w, hw⟩ | hs | he
    · rw [hp] at hw
      cases hw
    · exact .inl (by simpa [cpuAccess, hp, cpuStep] using hs)
    · exact .inr he

theorem kickInv_step (s : IrqRun n) (op : IrqOp n) (h : KickInv s) (hok : s.KeepsKick op) :
    KickInv (s.step op) := by
  cases op with
  | dev d => exact kickInv_dev h d hok
  | cpu spurious => exact kickInv_cpu h spurious
  | execute st | quiesce =>
    simp only [step]
    split
    · rename_i hp
      exact fun _ => .inr (.inl hp.2)
    · exact h
  | honourAtMb =>
    simp only [step]
    split
    · exact fun _ => .inl ⟨_, rfl⟩
    · exact h
  | irqH d l a delay =>
    simp only [step]
    split
    · rename_i hd
      intro hreq
      rcases h hreq with hw | hs | ⟨e, he⟩
      · exact .inl hw
      · exact .inr (.inl hs)
      · have hne : e ≠ d := by
          rintro rfl
          rw [hd] at he
          cases he
        exact .inr (.inr ⟨e, (Function.update_of_ne hne _ _).trans he⟩)
    · exact h
  | requestDpcFlush d =>
    simp only [step]
    split
    · rename_i hd
      intro hreq
      rcases h hreq with hw | hs | ⟨e, he⟩
      · exact .inl hw
      · exact .inr (.inl hs)
      · have hne : e ≠ d := by
          rintro rfl
          rw [hd] at he
          cases he
        exact .inr (.inr ⟨e, (Function.update_of_ne hne _ _).trans he⟩)
    · exact h

/-- A timer check that nobody disturbs honours the request. -/
theorem execute_flushes (hreq : s.cpu.dpcFlushReq = true) (hset : s.cpu.checkTimers = true)
    (hp : s.pos = .idle) (st : Nat) :
    let s' := (((s.step (.execute st)).step (.cpu false)).step (.cpu false)).step (.cpu false)
    s'.flushes = s.flushes + 1 ∧ s'.cpu.dpcFlushReq = false := by
  simp [step, hp, hset, cpuAccess, cpuStep, hreq, CpuPos.flushing]

end

/-- In every run whose releases drop no pending kick, a flush request is not forgotten. -/
theorem flush_request_kept {s : IrqRun n} (h : Lib.Reach Start KeepsKick step s) :
    FlushKept s := by
  have hinv : KickInv s := by
    refine Lib.Reach.inv (fun s hs => ?_) kickInv_step h
    intro hreq
    rw [hs.dpcFlushReq] at hreq
    cases hreq
  refine ⟨fun hreq hpos => ?_, fun hreq hset hp st => execute_flushes hreq hset hp st⟩
  rcases hinv hreq with ⟨w, hw⟩ | hk
  · exact absurd hw (hpos w)
  · exact hk

theorem keepsKick_dev {s : IrqRun n} {d : Fin n} (h : ∀ l, s.dev d ≠ .clearTimers l) :
    s.KeepsKick (.dev d) := by
  rintro ⟨l, hl⟩
  exact absurd hl (h l)

/-- A line is asserted and released, and before the release clears `check_timers` another thread has
asked for a flush: its kick is to come. -/
def releaseInRequest : List (IrqOp 2) :=
  [.irqH 0 1 true 0, .dev 0, .dev 0, .dev 0, .dev 0, .irqH 0 1 false 0, .dev 0, .dev 0, .dev 0,
    .requestDpcFlush 1, .dev 1, .dev 0, .dev 1]

theorem releaseInRequest_allowed :
    Lib.Allowed KeepsKick step (powerUp : IrqRun 2) releaseInRequest :=
  ⟨trivial, keepsKick_dev (by decide), keepsKick_dev (by decide), keepsKick_dev (by decide),
    keepsKick_dev (by decide), trivial, keepsKick_dev (by decide), keepsKick_dev (by decide),
    keepsKick_dev (by decide), trivial, keepsKick_dev (by decide), fun _ _ => .inr ⟨1, rfl⟩,
    keepsKick_dev (by decide), trivial⟩

/-- The release clears `check_timers`, the kick sets it, and the next timer check flushes. -/
theorem flush_request_kept_released :
    let s := releaseInRequest.foldl step (powerUp : IrqRun 2)
    let s' := (((s.step (.execute 32)).step (.cpu false)).step (.cpu false)).step (.cpu false)
    s.cpu.dpcFlushReq = true ∧ s.cpu.eir 1 = false ∧ s'.flushes = 1 ∧ s'.cpu.dpcFlushReq = false := by
  have hkept := flush_request_kept ((Lib.Reach.start powerUp_start).run releaseInRequest
    releaseInRequest_allowed)
  have hflushed := hkept.flushed rfl rfl rfl 32
  exact ⟨rfl, rfl, hflushed⟩

/-- A flush is asked for while a line is asserted with no delay. -/
def requestFlush : List (IrqOp 1) :=
  [.irqH 0 1 true 0, .dev 0, .dev 0, .dev 0, .dev 0, .requestDpcFlush 0, .dev 0, .dev 0]

/-- The line is then released. -/
def releaseAfterRequest : List (IrqOp 1) :=
  requestFlush ++ [.irqH 0 1 false 0, .dev 0, .dev 0, .dev 0, .dev 0]

/-- A release clears the kick of a request that nobody has honoured. -/
theorem flush_request_dropped : ¬∀ s : IrqRun 1,
    Lib.Reach Start (fun _ _ => True) step s → FlushKept s := by
  intro hall
  have hreach : Lib.Reach Start (fun _ _ => True) step (releaseAfterRequest.foldl step powerUp) :=
    (Lib.Reach.start powerUp_start).foldl releaseAfterRequest fun _ _ _ => trivial
  rcases (hall _ hreach).kicked rfl (fun w hw => by cases hw) with hset | ⟨d, hd⟩
  · cases hset
  · rw [Subsingleton.elim d 0] at hd
    cases hd

end IrqRun

end Alphabox.Cpu.Irq
