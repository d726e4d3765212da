import Alphabox.Isa.Dma
import Mathlib.Algebra.BigOperators.Ring.List

/-!
# An ISA DMA transfer may be cut

`copy_eq`: whichever way the address runs, the copy is byte by byte where `address` says.
`advance_add`: the registers after two pieces are those after one, as long as the first does not
reach the count. `pieces_run` takes both through any list of pieces.
-/

namespace Alphabox.Isa.Dma

open Function (update)

variable {s : State} {channel width n : Nat} {eop toMemory ali addr32 : Bool}

/-! ## The copy -/

theorem range_flatMap {α : Type} (w : Nat) (f : Nat → α) (n : Nat) :
    ((List.range n).flatMap fun k => (List.range w).map fun j => f (k * w + j)) =
      (List.range (n * w)).map f := by
  induction n with
  | zero => simp
  | succ n ih =>
    rw [List.range_succ, List.flatMap_append, ih, Nat.succ_mul, List.range_add, List.map_append,
      List.map_map]
    simp

theorem decrement_eq (hw : 0 < width) (page : Nat) (current : BitVec 16) :
    copy (n * width) width page current true =
      (List.range (n * width)).map fun i => (address page current true width i, i) := by
  rw [copy, if_pos rfl, Nat.mul_div_cancel n hw, ← range_flatMap]
  refine List.flatMap_congr fun k _ => List.map_congr_left fun j hj => ?_
  have hj := List.mem_range.1 hj
  have hdiv : (k * width + j) / width = k := by
    rw [Nat.mul_comm, Nat.mul_add_div hw, Nat.div_eq_of_lt hj, Nat.add_zero]
  have hmod : (k * width + j) % width = j := by
    rw [Nat.mul_comm, Nat.mul_add_mod, Nat.mod_eq_of_lt hj]
  rw [address, hdiv, hmod, BitVec.ofNat_add]
  rfl

/-- A page and an address in it do not overlap. -/
theorem page_or {p b : Nat} (hw : width = 1 ∨ width = 2) (hp : p % (0x10000 * width) = 0)
    (hb : b < 0x10000 * width) : p ||| b = p + b := by
  obtain ⟨q, rfl⟩ := Nat.dvd_of_mod_eq_zero hp
  obtain rfl | rfl := hw
  · rw [show 0x10000 * 1 = 2 ^ 16 by rfl] at hb ⊢
    exact (Nat.two_pow_add_eq_or_of_lt hb q).symm
  · rw [show 0x10000 * 2 = 2 ^ 17 by rfl] at hb ⊢
    exact (Nat.two_pow_add_eq_or_of_lt hb q).symm

theorem increment_eq (hw : width = 1 ∨ width = 2) {page : Nat} (hp : page % (0x10000 * width) = 0)
    (current : BitVec 16) (hn : n ≤ 0x10000) :
    copy (n * width) width page current false =
      (List.range (n * width)).map fun i => (address page current false width i, i) := by
  have hc := current.isLt
  -- Byte `i` before the wrap and after it.
  have before : ∀ i, i < (0x10000 - current.toNat) * width →
      address page current false width i =
        BitVec.ofNat 32 (page + current.toNat * width) + BitVec.ofNat 32 i := by
    intro i hi
    have hk : i / width < 0x10000 - current.toNat := Nat.div_lt_of_lt_mul (by rwa [Nat.mul_comm])
    have hu : (current + BitVec.ofNat 16 (i / width)).toNat = current.toNat + i / width := by
      rw [BitVec.toNat_add, BitVec.toNat_ofNat]
      generalize i / width = q at hk
      omega
    have hb : (current.toNat + i / width) * width < 0x10000 * width :=
      Nat.mul_lt_mul_of_pos_right (by omega) (by omega)
    rw [address, if_neg (by simp), hu, page_or hw hp hb, ← BitVec.ofNat_add]
    congr 1
    have := Nat.div_add_mod i width
    rw [Nat.add_mul, Nat.mul_comm (i / width)]
    omega
  have past : ∀ i, (0x10000 - current.toNat) * width ≤ i → i < n * width →
      address page current false width i =
        BitVec.ofNat 32 page + BitVec.ofNat 32 (i - (0x10000 - current.toNat) * width) := by
    intro i hi hin
    have hk1 : 0x10000 - current.toNat ≤ i / width := (Nat.le_div_iff_mul_le (by omega)).2 hi
    have hk2 : i / width < n := Nat.div_lt_of_lt_mul (by rwa [Nat.mul_comm])
    have hu : (current + BitVec.ofNat 16 (i / width)).toNat =
        i / width - (0x10000 - current.toNat) := by
      rw [BitVec.toNat_add, BitVec.toNat_ofNat]
      generalize i / width = q at hk1 hk2
      omega
    have hb : (i / width - (0x10000 - current.toNat)) * width < 0x10000 * width :=
      Nat.mul_lt_mul_of_pos_right (by omega) (by omega)
    rw [address, if_neg (by simp), hu, page_or hw hp hb, ← BitVec.ofNat_add]
    congr 1
    have := Nat.div_add_mod i width
    rw [Nat.sub_mul, Nat.mul_comm (i / width)]
    have := Nat.mul_le_mul_left width hk1
    rw [Nat.mul_comm width (0x10000 - current.toNat)] at this
    omega
  have hfirst : page ||| current.toNat * width = page + current.toNat * width :=
    page_or hw hp (Nat.mul_lt_mul_of_pos_right hc (by omega))
  rw [copy, if_neg (by simp)]
  dsimp only
  rw [hfirst]
  by_cases hlt : n * width < (0x10000 - current.toNat) * width
  · rw [if_pos hlt, if_neg (Nat.lt_irrefl _), List.append_nil]
    refine List.map_congr_left fun i hi => ?_
    have := List.mem_range.1 hi
    rw [before i (by omega), Nat.zero_add]
  · rw [if_neg hlt]
    have hsum : n * width = (0x10000 - current.toNat) * width +
        (n * width - (0x10000 - current.toNat) * width) := by omega
    have hhead : move (page + current.toNat * width) 0 ((0x10000 - current.toNat) * width) =
        (List.range ((0x10000 - current.toNat) * width)).map fun i =>
          (address page current false width i, i) := by
      refine List.map_congr_left fun i hi => ?_
      rw [before i (List.mem_range.1 hi), Nat.zero_add]
    have htail : ∀ m, m ≤ n * width - (0x10000 - current.toNat) * width →
        move page ((0x10000 - current.toNat) * width) m = (List.range m).map fun i =>
          (address page current false width ((0x10000 - current.toNat) * width + i),
            (0x10000 - current.toNat) * width + i) := by
      intro m hm
      refine List.map_congr_left fun i hi => ?_
      have := List.mem_range.1 hi
      rw [past _ (Nat.le_add_right _ _) (by omega), Nat.add_sub_cancel_left]
    by_cases heq : (0x10000 - current.toNat) * width < n * width
    · rw [if_pos heq, hhead, htail _ (Nat.le_refl _)]
      nth_rewrite 2 [hsum]
      rw [List.range_add, List.map_append, List.map_map]
      rfl
    · rw [if_neg heq, List.append_nil, hhead, Nat.le_antisymm (Nat.not_lt.1 hlt) (Nat.not_lt.1 heq)]

theorem copy_eq (hw : width = 1 ∨ width = 2) {page : Nat} (hp : page % (0x10000 * width) = 0)
    (current : BitVec 16) (decrement : Bool) (hn : n ≤ 0x10000) :
    copy (n * width) width page current decrement =
      (List.range (n * width)).map fun i => (address page current decrement width i, i) := by
  cases decrement with
  | true => exact decrement_eq (by omega) page current
  | false => exact increment_eq hw hp current hn

theorem pageOf_mod (ch : Chan) (hw : width = 1 ∨ width = 2) :
    pageOf ch addr32 width % (0x10000 * width) = 0 := by
  unfold pageOf
  dsimp only
  generalize (if addr32 = true then ch.pagebase else ch.pagebase &&& 0x00ff) = b
  obtain rfl | rfl := hw
  · rw [if_neg (by omega), Nat.shiftLeft_eq]
    exact Nat.mul_mod_left _ _
  · rw [if_pos rfl, Nat.shiftLeft_eq, show 0x10000 * 2 = 2 * 2 ^ 16 by rfl, Nat.mul_mod_mul_right]
    have : (b &&& 0xfffe).toNat % 2 = 0 := by
      have h0 : (b &&& 0xfffe).getLsbD 0 = false := by
        rw [BitVec.getLsbD_and, show (0xfffe : BitVec 16).getLsbD 0 = false by decide,
          Bool.and_false]
      have := Nat.mod_two_eq_one_iff_testBit_zero.not.2 (by
        rw [Bool.not_eq_true]; exact h0)
      omega
    rw [this, Nat.zero_mul]

/-! ## The registers -/

/-- A channel's registers after some units that do not reach its count. -/
def advanced (ch : Chan) (units : Nat) : Chan :=
  { ch with
    current :=
      if ch.mode &&& 0x20 ≠ 0 then ch.current - BitVec.ofNat 16 units
      else ch.current + BitVec.ofNat 16 units
    count := ch.count - BitVec.ofNat 16 units }

theorem advance_eq (n : Nat) : advanceTransfer s channel n eop =
    (if decide (n = (s.channel channel).count.toNat + 1) || eop then
        completeTransfer
          { s with channel := update s.channel channel (advanced (s.channel channel) n) } channel
      else { s with channel := update s.channel channel (advanced (s.channel channel) n) },
      decide (n = (s.channel channel).count.toNat + 1)) := rfl

theorem advanced_add (ch : Chan) (a b : Nat) : advanced (advanced ch a) b = advanced ch (a + b) := by
  unfold advanced
  dsimp only
  rw [BitVec.ofNat_add, BitVec.sub_sub]
  split
  · rw [BitVec.sub_sub]
  · rw [BitVec.add_assoc]

theorem advanced_count {ch : Chan} {a : Nat} (ha : a ≤ ch.count.toNat) :
    (advanced ch a).count.toNat = ch.count.toNat - a := by
  have := ch.count.isLt
  unfold advanced
  rw [BitVec.toNat_sub, BitVec.toNat_ofNat]
  omega

/-- A piece that does not reach the count and does not end the transfer. -/
theorem advance_short {a : Nat} (ha : a ≤ (s.channel channel).count.toNat) :
    advanceTransfer s channel a false =
      ({ s with channel := update s.channel channel (advanced (s.channel channel) a) }, false) := by
  have hne : ¬a = (s.channel channel).count.toNat + 1 := by omega
  rw [advance_eq, decide_eq_false hne]
  rfl

/-- The registers after two pieces are those after one. -/
theorem advance_add {a b : Nat} (ha : a ≤ (s.channel channel).count.toNat) :
    advanceTransfer (advanceTransfer s channel a false).1 channel b eop =
      advanceTransfer s channel (a + b) eop := by
  have hc := advanced_count ha
  have hd : b = (s.channel channel).count.toNat - a + 1 ↔
      a + b = (s.channel channel).count.toNat + 1 := by omega
  rw [advance_short ha, advance_eq, advance_eq]
  simp only [Function.update_self, hc, hd, advanced_add, Function.update_idem]

theorem blocked_short (a : Nat) :
    Blocked { s with channel := update s.channel channel (advanced (s.channel channel) a) } channel
      toMemory ↔ Blocked s channel toMemory := by
  unfold Blocked
  simp only [Function.update_self]
  rfl

/-! ## One call -/

theorem width_cases (hw : transferWidth channel = some width) : width = 1 ∨ width = 2 := by
  unfold transferWidth at hw
  split at hw
  · cases hw
  · split at hw
    · exact .inl (Option.some.inj hw).symm
    · exact .inr (Option.some.inj hw).symm

theorem transfer_blocked (hw : transferWidth channel = some width)
    (hb : ali = false ∨ Blocked s channel toMemory) (length : Nat) :
    transfer ali addr32 s channel length eop toMemory =
      ⟨s, some ⟨0, true, false, false, false⟩, []⟩ := by
  rw [transfer, hw]
  exact if_pos hb

/-- What an accepted call of `n` units moves. -/
def movesOf (s : State) (channel width : Nat) (addr32 : Bool) (bytes : Nat) : List Move :=
  let ch := s.channel channel
  if ch.mode &&& 0x0c = 0 then []
  else (List.range bytes).map fun i =>
    (address (pageOf ch addr32 width) ch.current (ch.mode &&& 0x20 ≠ 0) width i, i)

theorem transfer_units (hw : transferWidth channel = some width)
    (hb : ¬(ali = false ∨ Blocked s channel toMemory)) (h0 : 0 < n)
    (hn : n ≤ (s.channel channel).count.toNat + 1) :
    transfer ali addr32 s channel (n * width) eop toMemory =
      ⟨(advanceTransfer s channel n eop).1,
        some ⟨if (s.channel channel).mode &&& 0x0c = 0 then 0 else n * width, false,
          decide (n = (s.channel channel).count.toNat + 1), eop,
          decide ((s.channel channel).mode &&& 0x0c = 0)⟩,
        movesOf s channel width addr32 (n * width)⟩ := by
  have hwc := width_cases hw
  have hpos : 0 < width := by omega
  have hlt := (s.channel channel).count.isLt
  have hcount : (if 0 < n * width ∧ n * width < ((s.channel channel).count.toNat + 1) * width then
      n * width else ((s.channel channel).count.toNat + 1) * width) = n * width := by
    split
    · rfl
    · rename_i hc
      have hle := Nat.mul_le_mul_right width hn
      have := Nat.mul_pos h0 hpos
      omega
  rw [transfer, hw]
  dsimp only
  rw [if_neg hb, hcount, if_neg (by rw [Nat.mul_mod_left]; simp), Nat.mul_div_cancel n hpos]
  by_cases hv : (s.channel channel).mode &&& 0x0c = 0
  · rw [if_pos hv, if_pos hv, decide_eq_true hv, movesOf, if_pos hv, advance_eq]
  · rw [if_neg hv, if_neg hv, decide_eq_false hv, movesOf, if_neg hv, copy_eq hwc (pageOf_mod _ hwc) _ _ (by omega), advance_eq]

/-! ## Pieces -/

/-- The second of two pieces moves what is left of one. -/
theorem movesOf_add (hpos : 0 < width) (a b : Nat) :
    movesOf s channel width addr32 ((a + b) * width) =
      movesOf s channel width addr32 (a * width) ++
        (movesOf { s with channel := update s.channel channel (advanced (s.channel channel) a) }
          channel width addr32 (b * width)).map fun m => (m.1, a * width + m.2) := by
  have hpage : pageOf (advanced (s.channel channel) a) addr32 width =
      pageOf (s.channel channel) addr32 width := rfl
  have hmode : (advanced (s.channel channel) a).mode = (s.channel channel).mode := rfl
  have hcur : (advanced (s.channel channel) a).current =
      if (s.channel channel).mode &&& 0x20 ≠ 0 then
        (s.channel channel).current - BitVec.ofNat 16 a
      else (s.channel channel).current + BitVec.ofNat 16 a := rfl
  have haddr : ∀ i, address (pageOf (s.channel channel) addr32 width)
      (advanced (s.channel channel) a).current ((s.channel channel).mode &&& 0x20 ≠ 0) width i =
      address (pageOf (s.channel channel) addr32 width) (s.channel channel).current
        ((s.channel channel).mode &&& 0x20 ≠ 0) width (a * width + i) := by
    intro i
    have hdiv : (a * width + i) / width = a + i / width := by
      rw [Nat.mul_comm, Nat.mul_add_div hpos]
    have hmod : (a * width + i) % width = i % width := by
      rw [Nat.mul_comm, Nat.mul_add_mod]
    have hadd : BitVec.ofNat 16 (a + i / width) = BitVec.ofNat 16 a + BitVec.ofNat 16 (i / width) :=
      BitVec.ofNat_add _ _
    unfold address
    rw [hdiv, hmod, hcur, hadd]
    by_cases hd : (s.channel channel).mode &&& 0x20 ≠ 0
    · simp only [if_pos hd, decide_eq_true hd, if_true, BitVec.sub_sub]
    · simp only [if_neg hd, decide_eq_false hd, Bool.false_eq_true, if_false, BitVec.add_assoc]
  unfold movesOf
  simp only [Function.update_self, hmode, hpage]
  split
  · rfl
  · rw [Nat.add_mul, List.range_add, List.map_append, List.map_map, List.map_map]
    refine congrArg _ (List.map_congr_left fun i _ => ?_)
    rw [Function.comp_apply, Function.comp_apply]
    exact Prod.ext (haddr i).symm rfl

theorem pieces_run (hw : transferWidth channel = some width) {ns : List Nat} (hne : ns ≠ [])
    (hb : ¬(ali = false ∨ Blocked s channel toMemory)) (hpos : ∀ n ∈ ns, 0 < n)
    (hsum : ns.sum ≤ (s.channel channel).count.toNat + 1) (offset : Nat) :
    ∃ rs, transferPieces ali addr32 channel eop toMemory s offset (ns.map (· * width)) =
        ((advanceTransfer s channel ns.sum eop).1, rs,
          (movesOf s channel width addr32 (ns.sum * width)).map fun m => (m.1, offset + m.2)) ∧
      rs.map (·.map (·.terminalCount)) = List.replicate (ns.length - 1) (some false) ++
        [some (decide (ns.sum = (s.channel channel).count.toNat + 1))] := by
  have hwpos : 0 < width := by
    have := width_cases hw
    omega
  induction ns generalizing s offset with
  | nil => exact absurd rfl hne
  | cons n rest ih =>
    have hn := hpos n List.mem_cons_self
    rw [List.sum_cons] at hsum
    rw [List.map_cons, transferPieces]
    by_cases hrest : rest = []
    · subst hrest
      rw [List.map_nil, List.isEmpty_nil, Bool.and_true, transfer_units hw hb hn (by simpa using hsum)]
      simp only [transferPieces, List.sum_cons, List.sum_nil, Nat.add_zero, List.append_nil]
      exact ⟨_, rfl, rfl⟩
    · have hmore : 0 < rest.sum := by
        obtain ⟨m, rest', rfl⟩ := List.exists_cons_of_ne_nil hrest
        have := hpos m (by simp)
        rw [List.sum_cons]
        omega
      have hna : n ≤ (s.channel channel).count.toNat := by omega
      have hempty : (rest.map (· * width)).isEmpty = false := by
        rw [List.isEmpty_eq_false_iff]
        simpa using hrest
      have hb' : ¬(ali = false ∨ Blocked
          { s with channel := update s.channel channel (advanced (s.channel channel) n) } channel
          toMemory) := by
        rwa [blocked_short]
      have hc : (update s.channel channel (advanced (s.channel channel) n) channel).count.toNat =
          (s.channel channel).count.toNat - n := by
        rw [Function.update_self, advanced_count hna]
      obtain ⟨rs, hrun, hflags⟩ := ih hrest hb' (fun m hm => hpos m (List.mem_cons_of_mem n hm))
        (by rw [hc]; omega) (offset + n * width)
      have hadv := @advance_add s channel eop n rest.sum hna
      rw [advance_short hna] at hadv
      rw [hempty, Bool.and_false, transfer_units hw hb hn (by omega), advance_short hna]
      dsimp only at hadv ⊢
      rw [hrun, hadv]
      refine ⟨_, Prod.ext rfl (Prod.ext rfl ?_), ?_⟩
      · dsimp only
        rw [List.sum_cons, movesOf_add hwpos, List.map_append, List.map_map]
        congr 1
        refine List.map_congr_left fun m _ => ?_
        simp only [Function.comp, Nat.add_assoc]
      · obtain ⟨k, hk⟩ := Nat.exists_eq_succ_of_ne_zero
          (Nat.pos_iff_ne_zero.1 (List.length_pos_iff.2 hrest))
        have h1 : ¬n = (s.channel channel).count.toNat + 1 := by omega
        have h2 : decide (rest.sum = (s.channel channel).count.toNat - n + 1) =
            decide (n + rest.sum = (s.channel channel).count.toNat + 1) :=
          decide_eq_decide.2 (by omega)
        simp only [hc] at hflags
        rw [List.map_cons, hflags, List.length_cons, hk, List.sum_cons, h2, decide_eq_false h1]
        simp [List.replicate_succ]

/-- Pieces of a call that is refused are refused too. -/
theorem pieces_blocked (hw : transferWidth channel = some width)
    (hb : ali = false ∨ Blocked s channel toMemory) (ls : List Nat) (offset : Nat) :
    transferPieces ali addr32 channel eop toMemory s offset ls =
      (s, List.replicate ls.length (some ⟨0, true, false, false, false⟩), []) := by
  induction ls generalizing offset with
  | nil => rfl
  | cons l ls ih =>
    rw [transferPieces, transfer_blocked hw hb]
    dsimp only
    rw [ih]
    rfl

/-! ## Odd lengths -/

/-- A word channel's odd length is refused where it cuts the count; a longer one is cut to it. -/
theorem odd_refused_iff (hw : transferWidth channel = some 2) {length : Nat}
    (hodd : length % 2 = 1) :
    Refused s (transfer ali addr32 s channel length eop toMemory) ↔
      (ali = false ∨ Blocked s channel toMemory) ∨
        length < ((s.channel channel).count.toNat + 1) * 2 := by
  by_cases hb : ali = false ∨ Blocked s channel toMemory
  · rw [transfer_blocked hw hb]
    exact iff_of_true ⟨rfl, rfl, .inr rfl⟩ (.inl hb)
  by_cases hlt : length < ((s.channel channel).count.toNat + 1) * 2
  · have hnone : transfer ali addr32 s channel length eop toMemory = ⟨s, none, []⟩ := by
      have hcut : (if 0 < length ∧ length < ((s.channel channel).count.toNat + 1) * 2 then length
          else ((s.channel channel).count.toNat + 1) * 2) = length := if_pos ⟨by omega, hlt⟩
      rw [transfer, hw]
      dsimp only
      rw [if_neg hb, hcut, if_pos (by omega)]
    rw [hnone]
    exact iff_of_true ⟨rfl, rfl, .inl rfl⟩ (.inr hlt)
  · have hall : transfer ali addr32 s channel length eop toMemory =
        transfer ali addr32 s channel (((s.channel channel).count.toNat + 1) * 2) eop toMemory := by
      have hcut : (if 0 < length ∧ length < ((s.channel channel).count.toNat + 1) * 2 then length
          else ((s.channel channel).count.toNat + 1) * 2) =
          ((s.channel channel).count.toNat + 1) * 2 := if_neg fun h => hlt h.2
      rw [transfer, transfer, hw]
      dsimp only
      rw [hcut, ite_self]
    rw [hall, transfer_units hw hb (by omega) (Nat.le_refl _)]
    refine iff_of_false ?_ (not_or.2 ⟨hb, hlt⟩)
    intro ⟨_, _, hr⟩
    obtain hr | hr := hr
    · cases hr
    · exact absurd (congrArg Result.blocked (Option.some.inj hr)) (by simp)

/-- A transfer may be cut anywhere, and a refused call does nothing; an odd length on a word channel
is refused exactly where the call is blocked or the length is below what the count has left. -/
theorem transfer_cut (ali addr32 eop toMemory : Bool) (s : State) {channel width : Nat}
    (hw : transferWidth channel = some width) :
    (∀ ls : List Nat, ls ≠ [] → (∀ l ∈ ls, 0 < l ∧ l % width = 0) →
      ls.sum ≤ ((s.channel channel).count.toNat + 1) * width →
      let one := transfer ali addr32 s channel ls.sum eop toMemory
      let cut := transferPieces ali addr32 channel eop toMemory s 0 ls
      cut.1 = one.state ∧ cut.2.2 = one.moves ∧
      cut.2.1.map (·.map (·.terminalCount)) =
        List.replicate (ls.length - 1) (some false) ++ [one.result.map (·.terminalCount)] ∧
      (¬(ali = false ∨ Blocked s channel toMemory) →
        one.result.map (·.terminalCount) =
          some (decide (ls.sum = ((s.channel channel).count.toNat + 1) * width)) ∧
        one.moves = if (s.channel channel).mode &&& 0x0c = 0 then []
          else (List.range ls.sum).map fun i =>
            (address (pageOf (s.channel channel) addr32 width) (s.channel channel).current
              ((s.channel channel).mode &&& 0x20 ≠ 0) width i, i))) ∧
    (ali = false ∨ Blocked s channel toMemory →
      ∀ length, Refused s (transfer ali addr32 s channel length eop toMemory)) ∧
    (width = 2 → ∀ length, length % 2 = 1 →
      (Refused s (transfer ali addr32 s channel length eop toMemory) ↔
        (ali = false ∨ Blocked s channel toMemory) ∨
          length < ((s.channel channel).count.toNat + 1) * 2)) := by
  have hpos : 0 < width := by
    have := width_cases hw
    omega
  refine ⟨fun ls hne hl hsum => ?_, fun hb length => ?_, fun h2 length hodd => ?_⟩
  · by_cases hb : ali = false ∨ Blocked s channel toMemory
    · dsimp only
      rw [transfer_blocked hw hb, pieces_blocked hw hb]
      refine ⟨rfl, rfl, ?_, fun hn => absurd hb hn⟩
      obtain ⟨k, hk⟩ := Nat.exists_eq_succ_of_ne_zero
        (Nat.pos_iff_ne_zero.1 (List.length_pos_iff.2 hne))
      rw [List.map_replicate, hk]
      exact List.replicate_succ'
    -- The lengths in units.
    obtain ⟨ns, hns⟩ : ∃ ns : List Nat, ls = ns.map (· * width) := by
      refine ⟨ls.map (· / width), ?_⟩
      rw [List.map_map]
      refine (List.map_id ls).symm.trans (List.map_congr_left fun l hl' => ?_)
      exact (Nat.div_mul_cancel (Nat.dvd_of_mod_eq_zero (hl l hl').2)).symm
    have hsum' : ls.sum = ns.sum * width := by
      rw [hns, List.sum_map_mul_right, List.map_id']
    have hle : ns.sum ≤ (s.channel channel).count.toNat + 1 :=
      Nat.le_of_mul_le_mul_right (hsum' ▸ hsum) hpos
    have hns0 : ∀ n ∈ ns, 0 < n := by
      intro n hn
      have := (hl (n * width) (by rw [hns]; exact List.mem_map_of_mem hn)).1
      exact Nat.pos_of_mul_pos_right this
    have hnne : ns ≠ [] := by
      rintro rfl
      exact hne hns
    have hs0 : 0 < ns.sum := by
      obtain ⟨n, rest, rfl⟩ := List.exists_cons_of_ne_nil hnne
      have := hns0 n List.mem_cons_self
      rw [List.sum_cons]
      omega
    obtain ⟨rs, hrun, hflags⟩ := @pieces_run s channel width eop toMemory ali addr32 hw ns hnne hb
      hns0 hle 0
    have hiff : ns.sum = (s.channel channel).count.toNat + 1 ↔
        ls.sum = ((s.channel channel).count.toNat + 1) * width := by
      rw [hsum']
      exact (Nat.mul_left_inj (Nat.pos_iff_ne_zero.1 hpos)).symm
    have hshift : (movesOf s channel width addr32 (ns.sum * width)).map
        (fun m => (m.1, 0 + m.2)) = movesOf s channel width addr32 (ns.sum * width) := by
      simp
    dsimp only
    rw [hsum', transfer_units hw hb hs0 hle, ← hsum', hns, hrun, hshift, ← hns]
    refine ⟨rfl, by rw [hsum'], ?_, fun _ => ⟨?_, rfl⟩⟩
    · rw [hflags, hns, List.length_map]
      rfl
    · exact congrArg some (decide_eq_decide.2 hiff)
  · rw [transfer_blocked hw hb]
    exact ⟨rfl, rfl, .inr rfl⟩
  · subst h2
    exact odd_refused_iff hw hodd

/-- Every channel programmed to write four units upwards from 0x10. -/
def writing : State where
  channel _ := ⟨0x10, 0x10, 0x20, 3, 3, 0x44⟩
  controller _ := ⟨0, 0, 0, 0, true⟩

/-- Four words in three pieces: the registers are those after one call. -/
theorem transfer_cut_words :
    (transferPieces true false 5 false true writing 0 [2, 4, 2]).1 =
      (transfer true false writing 5 8 false true).state :=
  ((transfer_cut true false false true writing (rfl : transferWidth 5 = some 2)).1 [2, 4, 2]
    (by simp) (by decide) (by decide)).1

/-- Nine bytes on a word channel with four words left: eight are moved. -/
theorem odd_length_moves :
    ¬Refused writing (transfer true false writing 5 9 false true) := by
  intro ⟨_, hm, _⟩
  exact absurd (congrArg List.length hm) (by decide)

end Alphabox.Isa.Dma
