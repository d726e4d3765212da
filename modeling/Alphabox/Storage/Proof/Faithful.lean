import Alphabox.Storage.Proof.Transfer

/-!
# An overlay is a faithful disk, and survives crashes, up to `maxBase` bytes

Every operation of the owner, every failed file write and every crash keeps `Sim`; so a run of any
length answers as the session does, and as a plain copy does where no file write fails and the
host does not stop. The cluster number is narrowed to 32 bits: past `maxBase` bytes either the map
is empty or the first cluster answers for another one too.
-/

namespace Alphabox.Storage

open Lib DiskOverlay

variable {base file d : File} {o : DiskOverlay} {s : Session} {map : Array Nat} {used pos : Nat}

/-! ## Opening -/

theorem sim_opened (h : Image base file map used d) (path : String) (discard : Bool)
    (fate : Nat → Bool) :
    Sim base ⟨base, ⟨file, [], fate⟩, base.size, dataStartOf (clusterCount base.size), map, used,
      path, discard⟩ ⟨d, [], discard⟩ := by
  refine ⟨rfl, rfl, rfl, rfl, h, fun k => ⟨0, Nat.le_refl _, map, used, ?_⟩⟩
  simpa [Handle.after, Session.after] using h

/-- A path without a file gets a new one. -/
theorem open_absent (base : File) (path : String) (discard : Bool) (fate : Nat → Bool) :
    ∃ o, openOverlay base base.size path discard { file := .ok none } fate = .ok o ∧
      Sim base o ⟨base, [], discard⟩ ∧ o.f.fate = fate ∧
      o.map = Array.replicate (clusterCount base.size) 0 := by
  obtain ⟨tag, ht⟩ := baseTag_isSome base
  simp only [openOverlay, ht]
  exact ⟨_, rfl, sim_opened (Image.create ht) path discard fate, rfl, rfl⟩

/-- An overlay file is opened as it was left. -/
theorem open_image (h : Image base file map used d) (hS : base.size ≤ maxBase) (path : String)
    (discard : Bool) (fate : Nat → Bool) :
    ∃ o, openOverlay base base.size path discard { file := .ok (some file) } fate = .ok o ∧
      Sim base o ⟨d, [], discard⟩ ∧ o.f.fate = fate := by
  obtain ⟨tag, ht⟩ := baseTag_isSome base
  have hS' : base.size < 2 ^ 64 := Nat.lt_of_le_of_lt hS (by decide)
  simp only [openOverlay, ht, h.load hS' ht path]
  exact ⟨_, rfl, sim_opened h path discard fate, rfl⟩

/-! ## Steps and runs -/

theorem Sim.reopen (h : Sim base o s) (hS : base.size ≤ maxBase)
    (hi : Image base file map used d) (discard : Bool) :
    ∃ o', o.reopen (some file) discard = .ok (o', .opened) ∧ Sim base o' ⟨d, [], discard⟩ ∧
      o'.f.fate = o.f.fate := by
  obtain ⟨o', he, hs, hf⟩ := open_image hi hS o.filePath discard o.f.fate
  refine ⟨o', ?_, hs, hf⟩
  simp only [DiskOverlay.reopen, h.base_eq, h.baseSize_eq, he]

/-- One step of an overlay is a step of the session it stands for. -/
theorem Sim.step (h : Sim base o s) (hS : base.size ≤ maxBase) (e : Event) :
    ∃ o' s' out, o.exec e = .ok (o', out) ∧ Session.Step base s o.f.fate e s' o'.f.fate out ∧
      Sim base o' s' := by
  match e with
  | .op (.read pos n) =>
    refine ⟨o, s, _, ?_, .read s _ pos n, h⟩
    simp only [exec, h.read hS pos n]
  | .op (.write pos src) =>
    obtain ⟨o', j, c, hw, hj, hs, hc, hf⟩ := h.write hS pos src
    refine ⟨o', _, _, ?_, .write s _ _ pos src j c hj hc hf, hs⟩
    simp only [exec, hw]
  | .op (.reopen dis) =>
    cases hd : o.discard with
    | true =>
      obtain ⟨o', he, hs, hf, -⟩ := open_absent base o.filePath dis o.f.fate
      refine ⟨o', _, _, ?_, by rw [hf]; exact .reopen s _ dis, ?_⟩
      · simp only [exec, DiskOverlay.reopen, close, hd, if_true, h.base_eq, h.baseSize_eq, he]
      · rw [← h.discard_eq, hd]
        exact hs
    | false =>
      obtain ⟨o', he, hs, hf⟩ := h.reopen hS h.image dis
      refine ⟨o', _, _, ?_, by rw [hf]; exact .reopen s _ dis, ?_⟩
      · simp only [exec, close, hd, Bool.false_eq_true, if_false, he]
      · rw [← h.discard_eq, hd]
        exact hs
  | .crash k dis =>
    obtain ⟨m, hm, map, used, hi⟩ := h.past k
    obtain ⟨o', he, hs, hf⟩ := h.reopen hS hi dis
    exact ⟨o', _, _, he, by rw [hf]; exact .crash s _ k dis m hm, hs⟩

theorem Sim.steps (h : Sim base o s) (hS : base.size ≤ maxBase) (es : List Event) :
    ∃ o' outs, o.execAll es = .ok (o', outs) ∧ Session.Run base s o.f.fate es outs ∧
      ∃ s', Sim base o' s' := by
  induction es generalizing o s with
  | nil => exact ⟨o, [], rfl, .nil s _, s, h⟩
  | cons e es ih =>
    obtain ⟨o₁, s₁, out, he, hstep, h₁⟩ := h.step hS e
    obtain ⟨o', outs, hes, hrun, hs'⟩ := ih h₁
    refine ⟨o', out :: outs, ?_, .cons hstep hrun, hs'⟩
    simp only [execAll, he, hes]

theorem run_spec (hS : base.size ≤ maxBase) (path : String) (discard : Bool) (fate : Nat → Bool)
    (es : List Event) :
    ∃ o outs, run base path discard fate es = .ok (o, outs) ∧
      Session.Run base ⟨base, [], discard⟩ fate es outs ∧ ∃ s, Sim base o s := by
  obtain ⟨o, he, hs, hf, -⟩ := open_absent base path discard fate
  obtain ⟨o', outs, hr, hrun, hs'⟩ := hs.steps hS es
  refine ⟨o', outs, ?_, hf ▸ hrun, hs'⟩
  simp only [run, he, hr]

/-! ## A plain copy -/

/-- The pieces of a write make it up. -/
theorem writeAll_piecesOf (d : File) (S pos : Nat) (src : List UInt8) :
    d.writeAll (piecesOf S pos src) = d.writeAt pos (src.take (S - pos)) ∧
      ((piecesOf S pos src).map (·.2.length)).sum = min src.length (S - pos) := by
  induction hn : src.length using Nat.strong_induction_on generalizing d pos src with
  | _ n ih =>
    subst hn
    rw [piecesOf]
    split
    · rename_i hz
      have ht : src.take (S - pos) = [] := by
        rw [List.take_eq_nil_iff]
        rcases hz with h0 | hp
        · exact Or.inr (List.eq_nil_of_length_eq_zero h0)
        · exact Or.inl (by omega)
      rw [ht, File.writeAt_nil]
      refine ⟨rfl, ?_⟩
      simp only [List.map_nil, List.sum_nil]
      omega
    · have hlen := @pieceLen_pos S pos src.length (by omega) (by omega)
      generalize hl : pieceLen S pos src.length = len at hlen
      simp only [pieceLen] at hl
      have htake : (src.take len).length = len := by
        rw [List.length_take]
        omega
      obtain ⟨hw, hsum⟩ := ih (src.drop len).length (by simp; omega) (d.writeAt pos (src.take len))
        (pos + len) (src.drop len) rfl
      simp only [File.writeAll_cons, List.map_cons, List.sum_cons, hw, hsum, htake]
      constructor
      · have happ := @File.writeAt_append d pos (src.take len) ((src.drop len).take (S - (pos + len)))
        rw [htake] at happ
        rw [happ, ← List.take_add]
        congr 2
        omega
      · rw [List.length_drop]
        omega

theorem size_plainWrite (d : File) (pos : Nat) (src : List UInt8) :
    (plainWrite d pos src).size = d.size := by
  by_cases hp : pos ≤ d.size
  · refine File.size_writeAt ?_
    rw [List.length_take]
    omega
  · rw [plainWrite, Nat.sub_eq_zero_of_le (by omega), List.take_zero, File.writeAt_nil]

/-- Where no file write fails, a step of the session is a step of a plain copy. -/
theorem Session.Step.plain {s' : Session} {fate later : Nat → Bool} {op : Op} {out : Out}
    (hf : ∀ n, fate n = true) (h : Session.Step base s fate (.op op) s' later out)
    (hs : s.disk.size = base.size) :
    out = (Plain.exec base ⟨s.disk, s.discard⟩ op).2 ∧
      Plain.mk s'.disk s'.discard = (Plain.exec base ⟨s.disk, s.discard⟩ op).1 ∧
      ∀ n, later n = true := by
  cases h with
  | read => exact ⟨rfl, rfl, hf⟩
  | write _ pos src j c hj hc ht =>
    obtain ⟨hall, hlater⟩ := ht.calm hf
    obtain ⟨hw, hsum⟩ := writeAll_piecesOf s.disk base.size pos src
    have hd := @Session.disk_add s (piecesOf base.size pos src)
    refine ⟨?_, ?_, hlater⟩
    · rw [hall, List.take_length]
      simp only [Plain.exec, hs, hsum]
    · rw [hall, List.take_length]
      simp only [Plain.exec, plainWrite, hs]
      rw [← hw, ← hd]
      rfl
  | reopen => exact ⟨rfl, rfl, hf⟩

theorem Session.Run.plain {fate : Nat → Bool} {ops : List Op} {outs : List Out}
    (hf : ∀ n, fate n = true) (h : Session.Run base s fate (ops.map .op) outs)
    (hs : s.disk.size = base.size) : outs = Plain.outs base ⟨s.disk, s.discard⟩ ops := by
  induction ops generalizing s fate outs with
  | nil =>
    cases h
    rfl
  | cons op ops ih =>
    cases h with
    | cons hstep hrun =>
      rename_i s' later out outs
      obtain ⟨ho, hpl, hlater⟩ := hstep.plain hf hs
      have hs' : s'.disk.size = base.size := by
        have hd : s'.disk = (Plain.exec base ⟨s.disk, s.discard⟩ op).1.disk := by rw [← hpl]
        rw [hd]
        cases op with
        | read => exact hs
        | write pos src => exact (size_plainWrite _ pos src).trans hs
        | reopen =>
          simp only [Plain.exec]
          split
          · rfl
          · exact hs
      rw [Plain.outs, ho, ih hlater hrun hs', ← hpl]

/-! ## Bases that are too large -/

/-- The first byte is written past `maxBase` bytes too, where the map is not empty. -/
theorem write_first (h : Sim base o s) (hm : o.map[0]? = some 0) (hS : 0 < base.size)
    (hc : Calm o) (v : UInt8) :
    ∃ o' m, o.write 0 [v] = some (o', 1) ∧ Sim base o' (s.add [(0, [v])]) ∧
      o'.map[0]? = some (m + 1) := by
  obtain ⟨o₁, ok, he, h₁, hslot, _, -, htried⟩ := h.ready (c := 0) (by omega) hm
  obtain ⟨rfl, hc₁⟩ := htried.calm hc
  obtain ⟨m, hm₁⟩ := hslot rfl
  have h₂ := h₁.write_piece hm₁ [v] (show 0 % kCluster + 1 ≤ kCluster by decide)
    (show 0 + 1 ≤ base.size by omega) (hc₁ 0)
  refine ⟨_, m, ?_, h₂, hm₁⟩
  have hlen : pieceLen base.size 0 1 = 1 := by
    simp only [pieceLen, kCluster]
    omega
  have e₂ : o₁.writeAt (o₁.slotOffset m + 0 % kCluster) [v] =
      ((o₁.writeAt (o₁.slotOffset m + 0 % kCluster) [v]).1, true) :=
    Prod.ext rfl (hc₁ 0)
  have hu : u32 (0 / kCluster) = 0 := rfl
  rw [if_pos rfl] at he
  rw [DiskOverlay.write, dif_neg (by simp [h.baseSize_eq]; omega)]
  simp only [hu, hm, he, hm₁, slotOf_succ (h₁.image.entry_lt hm₁), List.length_singleton,
    h.baseSize_eq, hlen, List.take_succ_cons, List.take_zero, if_true]
  rw [e₂]
  dsimp only
  rw [DiskOverlay.write, dif_pos (by simp)]
  rfl

/-- A cluster whose number is that of the first one reads as the first one. -/
theorem read_aliased (h : Sim base o s) {m : Nat} (hm : o.map[0]? = some (m + 1))
    (hp : pos < base.size) (hc : u32 (pos / kCluster) = 0) (hoff : pos % kCluster = 0) :
    o.read pos 1 = some [s.disk.byte 0] := by
  have hlen : pieceLen base.size pos 1 = 1 := by
    simp only [pieceLen, kCluster]
    omega
  have hpiece := h.read_piece hm 1 (show 0 % kCluster + 1 ≤ kCluster by decide)
    (show 0 + 1 ≤ base.size by omega)
  rw [if_pos (Nat.succ_ne_zero m), Nat.zero_mod] at hpiece
  rw [DiskOverlay.read, dif_neg (by simp [h.baseSize_eq]; omega)]
  simp only [hc, hm, h.baseSize_eq, hlen, hoff]
  rw [if_pos (Nat.succ_ne_zero m), hpiece]
  dsimp only
  rw [DiskOverlay.read, dif_pos (by simp)]
  rfl

/-- Past `maxBase` bytes some run does not answer as a plain copy does: the map is empty, or the
first write shows through in the cluster `2 ^ 32`. -/
theorem run_of_large (h : maxBase < base.size) (path : String) (discard : Bool) :
    ∃ ops : List Op, ∀ o, run base path discard (fun _ => true) (ops.map .op) ≠
      .ok (o, Plain.outs base ⟨base, discard⟩ ops) := by
  obtain ⟨o, he, hs, hf, hmap⟩ := open_absent base path discard fun _ => true
  have hcalm : Calm o := fun n => by rw [hf]
  by_cases hC : clusterCount base.size = 0
  · refine ⟨[.read 0 1], fun o' => ?_⟩
    have hm : o.map[u32 (0 / kCluster)]? = none := by simp [hmap, hC]
    have hr : o.read 0 1 = none := by
      rw [DiskOverlay.read, dif_neg (by simp [hs.baseSize_eq]; omega)]
      simp only [hm]
    simp [run, he, execAll, exec, hr]
  · have hS : 2 ^ 48 < base.size := by
      simp only [clusterCount, maxBase, u32, kCluster] at hC h
      omega
    have hm : o.map[0]? = some 0 := by
      simp only [hmap, Array.getElem?_replicate]
      exact if_pos (Nat.pos_of_ne_zero hC)
    obtain ⟨p, hp, hpS, hpc, hpo⟩ : ∃ p, 0 < p ∧ p < base.size ∧ u32 (p / kCluster) = 0 ∧
        p % kCluster = 0 := ⟨2 ^ 48, by decide, hS, by decide, by decide⟩
    obtain ⟨v, hv⟩ : ∃ v, v ≠ base.byte p := ⟨base.byte p + 1, by simp⟩
    obtain ⟨o₁, m, hw, h₁, hm₁⟩ := write_first hs hm (by omega) hcalm v
    have hr := read_aliased h₁ hm₁ hpS hpc hpo
    have hb : (Session.add ⟨base, [], discard⟩ [(0, [v])]).disk.byte 0 = v := by
      rw [Session.disk_add]
      rfl
    have hplain : plainRead (plainWrite base 0 [v]) p 1 = [base.byte p] := by
      rw [plainRead, size_plainWrite, show min 1 (base.size - p) = 1 by omega, plainWrite,
        File.slice_writeAt (by simp; omega)]
      rfl
    refine ⟨[.write 0 [v], .read p 1], fun o' hrun => hv ?_⟩
    simp only [run, he, List.map_cons, List.map_nil, execAll, exec, hw, hr, hb] at hrun
    simp only [Except.ok.injEq, Prod.mk.injEq, Plain.outs, Plain.exec, hplain, List.cons.injEq,
      Out.bytes.injEq, and_true] at hrun
    exact hrun.2.2

theorem not_faithful_of_large (hS : maxBase < base.size) : ¬ FaithfulDisk base := by
  intro h
  obtain ⟨ops, hne⟩ := run_of_large hS "" false
  obtain ⟨o, ho, -⟩ := h "" false ops
  exact hne o ho

theorem not_crashSafe_of_large (hS : maxBase < base.size) : ¬ CrashSafe base := by
  intro h
  obtain ⟨ops, hne⟩ := run_of_large hS "" false
  obtain ⟨o, outs, ho, hrun⟩ := h "" false (fun _ => true) (ops.map .op)
  rw [hrun.plain (fun _ => rfl) rfl] at ho
  exact hne o ho

/-! ## Main results -/

/-- The overlay is a faithful disk exactly over the bases whose clusters a `u32` counts. -/
theorem overlay_faithful_iff (base : File) :
    FaithfulDisk base ↔ base.size ≤ (2 ^ 32 - 1) * kCluster := by
  refine ⟨fun h => Nat.le_of_not_lt fun hS => not_faithful_of_large hS h, ?_⟩
  intro hS path discard ops
  obtain ⟨o, outs, hr, hrun, s, hs⟩ := run_spec hS path discard (fun _ => true) (ops.map .op)
  refine ⟨o, ?_, hs.base_eq, hs.image.inj⟩
  rw [hr, hrun.plain (fun _ => rfl) rfl]
  rfl

/-- A base of one byte more than `2 ^ 32` clusters, all zero. -/
def hugeBase : File := ⟨2 ^ 48 + 1, fun _ => 0, fun _ _ => rfl⟩

/-- The first byte written to an overlay over `hugeBase` is read back from its last byte too. -/
theorem hugeBase_not_faithful : ¬ FaithfulDisk hugeBase :=
  not_faithful_of_large (show maxBase < 2 ^ 48 + 1 by decide)

/-- An overlay survives every crash and every failed file write exactly over the bases whose
clusters a `u32` counts. -/
theorem overlay_crash_safe_iff (base : File) :
    CrashSafe base ↔ base.size ≤ (2 ^ 32 - 1) * kCluster := by
  refine ⟨fun h => Nat.le_of_not_lt fun hS => not_crashSafe_of_large hS h, ?_⟩
  intro hS path discard fate es
  obtain ⟨o, outs, hr, hrun, -⟩ := run_spec hS path discard fate es
  exact ⟨o, outs, hr, hrun⟩

theorem hugeBase_not_crash_safe : ¬ CrashSafe hugeBase :=
  not_crashSafe_of_large (show maxBase < 2 ^ 48 + 1 by decide)

end Alphabox.Storage
