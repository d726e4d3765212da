import Alphabox.Pci.VirtioWalk
import Mathlib.Algebra.BigOperators.Group.List.Basic

/-!
# Descriptor chains are walked safely

The loop of `pop_chain` ends within one turn more than its two tables have descriptors
(`walk_ends`), with the chain `walkChain` gives; a chain it accepts is linked descriptors of the
queue's table, or of that and one indirect table (`walkChain_linked`). Transfers over a chain are
slices of its segments laid end to end (`chainRead_eq`, `chainWrite_eq`).
-/

namespace Alphabox.Pci

open Lib (leNat store fetch)

variable {m : GuestMem} {table entries i count n : Nat} {c c' : Chain}

/-! ## The loop ends -/

theorem walkTurns_add {w : WalkState} {r : Option Chain} (h : walkTurns m n w = some r) (k : Nat) :
    walkTurns m (n + k) w = some r := by
  induction n generalizing w with
  | zero => cases h
  | succ n ih =>
    rw [Nat.add_right_comm, walkTurns]
    rw [walkTurns] at h
    split
    · rename_i w' hb
      rw [hb] at h
      exact ih h
    · rename_i r' hb
      rw [hb] at h
      exact h

/-- The rest of the walk of a table, from `count` turns on; an indirect descriptor in it is none of
`pop_chain`'s where it is in an indirect table, and takes `k` turns otherwise. -/
theorem walkTable_turns {indirect : Bool} {ind : Descr → Chain → Option Chain} {k : Nat}
    (hind : ∀ bytes c, let d := Descr.ofBytes bytes
      if indirect || d.hasNext || decide (d.len < 16) || decide (d.len % 16 ≠ 0) then ind d c = none
      else walkTurns m k ⟨d.addr, d.len / 16, true, 0, 0, c⟩ = some (ind d c))
    (fuel : Nat) (hf : fuel + count = entries) :
    walkTurns m (fuel + 1 + k) ⟨table, entries, indirect, i, count, c⟩ =
      some (walkTable m table entries ind fuel i c) := by
  induction fuel generalizing i count c with
  | zero =>
    rw [show 0 + 1 + k = k + 1 by omega, walkTurns, walkBody,
      if_pos (.inr (show entries ≤ count by omega))]
    rfl
  | succ fuel ih =>
    rw [show fuel + 1 + 1 + k = (fuel + 1 + k) + 1 by omega, walkTurns, walkTable, walkBody]
    by_cases hi : entries ≤ i
    · rw [if_pos (.inl hi), if_pos hi]
    rw [if_neg (not_or.2 ⟨hi, (by omega : ¬entries ≤ count)⟩), if_neg hi]
    dsimp only
    cases dmaRead m ((table + 16 * i) % 2 ^ 64) 16 with
    | none => rfl
    | some bytes =>
      dsimp only
      by_cases hd : (Descr.ofBytes bytes).isIndirect = true
      · rw [if_pos hd, if_pos hd]
        have hrun := hind bytes c
        dsimp only at hrun
        split at hrun
        · rename_i hp
          rw [if_pos hp, hrun]
        · rename_i hp
          rw [if_neg hp, Nat.add_comm]
          exact walkTurns_add hrun _
      · rw [if_neg hd, if_neg hd]
        by_cases hn : (Descr.ofBytes bytes).hasNext = true
        · rw [if_pos hn, if_pos hn]
          exact ih (by omega)
        · rw [if_neg hn, if_neg hn]

theorem ofBytes_len_lt (bytes : List (BitVec 8)) : (Descr.ofBytes bytes).len < 2 ^ 32 := by
  refine Nat.lt_of_lt_of_le (Lib.leNat_lt _) ?_
  exact Nat.le_trans (Nat.pow_le_pow_right (by decide) (List.length_take_le 4 _))
    (by decide : 256 ^ 4 ≤ 2 ^ 32)

/-- An indirect table has fewer than `2 ^ 28` descriptors. -/
theorem walkIndirect_turns (bytes : List (BitVec 8)) (c : Chain) :
    let d := Descr.ofBytes bytes
    if false || d.hasNext || decide (d.len < 16) || decide (d.len % 16 ≠ 0) then
      walkIndirect m d c = none
    else walkTurns m (2 ^ 28) ⟨d.addr, d.len / 16, true, 0, 0, c⟩ = some (walkIndirect m d c) := by
  have hlen := ofBytes_len_lt bytes
  dsimp only
  rw [Bool.false_or, walkIndirect]
  split
  · rfl
  · obtain ⟨k, hk⟩ := Nat.exists_eq_add_of_le
      (show (Descr.ofBytes bytes).len / 16 + 1 + 0 ≤ 2 ^ 28 by omega)
    rw [hk]
    refine walkTurns_add (walkTable_turns (fun _ _ => ?_) _ (Nat.add_zero _)) k
    dsimp only
    rw [Bool.true_or, Bool.true_or, Bool.true_or, if_pos rfl]

/-- The loop of `pop_chain` ends, whatever the tables hold. -/
theorem walk_ends (m : GuestMem) (pfn : Nat) {head : Nat} (hh : head < kQueueSize) :
    walkTurns m (2 ^ 28 + 257) (walkStart pfn head) = some (walkChain m pfn head) := by
  rw [walkChain, if_neg (Nat.not_le.2 hh), Nat.add_comm]
  exact walkTable_turns (i := head) walkIndirect_turns kQueueSize rfl

/-! ## What it accepts -/

theorem segBytes_push (write : Bool) (segs : List Seg) (s : Seg) :
    segBytes write (segs ++ [s]) = segBytes write segs + if s.write = write then s.len else 0 := by
  unfold segBytes
  rw [List.filter_append, List.map_append, List.sum_append]
  congr 1
  by_cases h : s.write = write
  · simp [h]
  · simp [h]

/-- The counts of a chain are those of its segments. -/
def Chain.Counted (c : Chain) : Prop :=
  c.readable = segBytes false c.segs ∧ c.writable = segBytes true c.segs

theorem Chain.Counted.push {c : Chain} (h : c.Counted) (s : Seg) : (c.push s).Counted := by
  refine ⟨?_, ?_⟩
  · rw [Chain.push, segBytes_push, h.1]
    cases s.write <;> simp
  · rw [Chain.push, segBytes_push, h.2]
    cases s.write <;> simp

/-- The walk of a table: linked descriptors, and what an indirect one at their end leads to. -/
theorem walkTable_linked {ind : Descr → Chain → Option Chain} {fuel : Nat}
    (h : walkTable m table entries ind fuel i c = some c') :
    ∃ ds d, Linked m table entries i ds d ∧ (∀ e ∈ ds, e.isIndirect = false) ∧
      ((d.isIndirect = false ∧ d.hasNext = false ∧
          c' = (ds ++ [d]).foldl (fun c d => c.push d.seg) c) ∨
        (d.isIndirect = true ∧ ind d (ds.foldl (fun c d => c.push d.seg) c) = some c')) := by
  induction fuel generalizing i c with
  | zero => cases h
  | succ fuel ih =>
    rw [walkTable] at h
    split at h
    · cases h
    rename_i hi
    split at h
    · cases h
    rename_i bytes hb
    have hat : descrAt m table entries i = some (Descr.ofBytes bytes) := by
      rw [descrAt, if_pos (Nat.not_le.1 hi), hb]
      rfl
    dsimp only at h
    by_cases hd : (Descr.ofBytes bytes).isIndirect = true
    · rw [if_pos hd] at h
      exact ⟨[], _, .last hat, fun e he => absurd he List.not_mem_nil, .inr ⟨hd, h⟩⟩
    · rw [if_neg hd] at h
      rw [Bool.not_eq_true] at hd
      by_cases hn : (Descr.ofBytes bytes).hasNext = true
      · rw [if_pos hn] at h
        obtain ⟨ds, d, hl, hds, hend⟩ := ih h
        refine ⟨Descr.ofBytes bytes :: ds, d, .link hat hn hl, fun e he => ?_, hend⟩
        obtain rfl | he := List.mem_cons.1 he
        · exact hd
        · exact hds e he
      · rw [if_neg hn] at h
        rw [Bool.not_eq_true] at hn
        exact ⟨[], _, .last hat, fun e he => absurd he List.not_mem_nil,
          .inl ⟨hd, hn, (Option.some.inj h).symm⟩⟩

theorem foldl_push (ds : List Descr) (c : Chain) :
    (ds.foldl (fun c d => c.push d.seg) c).segs = c.segs ++ ds.map Descr.seg ∧
    (ds.foldl (fun c d => c.push d.seg) c).head = c.head ∧
    (c.Counted → (ds.foldl (fun c d => c.push d.seg) c).Counted) := by
  induction ds generalizing c with
  | nil => simp
  | cons d ds ih =>
    obtain ⟨h1, h2, h3⟩ := ih (c.push d.seg)
    refine ⟨?_, h2, fun hc => h3 (hc.push d.seg)⟩
    rw [List.foldl_cons, h1]
    simp [Chain.push]

/-- A chain that is accepted: its segments, in link order, are those of linked descriptors inside
the queue's table, or of these and of linked descriptors inside one indirect table. -/
theorem walkChain_linked {pfn head : Nat} (h : walkChain m pfn head = some c') :
    c'.head = head ∧ c'.Counted ∧
      (Plain m (descBase pfn) kQueueSize head c'.segs ∨
        ThroughIndirect m (descBase pfn) kQueueSize head c'.segs) := by
  have h0 : (⟨head, [], 0, 0⟩ : Chain).Counted := ⟨rfl, rfl⟩
  rw [walkChain] at h
  split at h
  · cases h
  obtain ⟨ds, d, hl, hds, hend⟩ := walkTable_linked h
  obtain ⟨hd, hn, rfl⟩ | ⟨hd, hi⟩ := hend
  · obtain ⟨h1, h2, h3⟩ := foldl_push (ds ++ [d]) ⟨head, [], 0, 0⟩
    refine ⟨h2, h3 h0, .inl ⟨ds, d, hl, fun e he => ?_, hn, h1⟩⟩
    obtain he | he := List.mem_append.1 he
    · exact hds e he
    · rw [List.mem_singleton.1 he]
      exact hd
  · rw [walkIndirect] at hi
    split at hi
    · cases hi
    rename_i hbad
    simp only [Bool.or_eq_true, decide_eq_true_eq, not_or, Bool.not_eq_true] at hbad
    obtain ⟨⟨hn, h16⟩, hmod⟩ := hbad
    obtain ⟨es, e, hl', hes, hend'⟩ := walkTable_linked hi
    obtain ⟨he, hen, rfl⟩ | ⟨_, hx⟩ := hend'
    · obtain ⟨a1, a2, a3⟩ := foldl_push ds ⟨head, [], 0, 0⟩
      obtain ⟨b1, b2, b3⟩ := foldl_push (es ++ [e])
        (ds.foldl (fun c d => c.push d.seg) ⟨head, [], 0, 0⟩)
      refine ⟨b2.trans a2, b3 (a3 h0), .inr ⟨ds, d, (es ++ [e]).map Descr.seg, hl, hds, hd, hn,
        Nat.not_lt.1 h16, by omega, ⟨es, e, hl', fun x hx => ?_, hen, rfl⟩, ?_⟩⟩
      · obtain hx | hx := List.mem_append.1 hx
        · exact hes x hx
        · rw [List.mem_singleton.1 hx]
          exact he
      · rw [b1, a1, List.nil_append]
    · cases hx

/-! ## Transfers -/

theorem segAddrs_cons (write : Bool) (s : Seg) (segs : List Seg) : segAddrs write (s :: segs) =
    (if s.write = write then (List.range s.len).map (s.addr + ·) else []) ++ segAddrs write segs := by
  unfold segAddrs
  by_cases h : s.write = write
  · simp [h]
  · simp [h]

theorem fetch_eq {a n : Nat} (h : a + n ≤ busSize) :
    fetch busSize m a n = (List.range n).map fun i => m (a + i) := by
  refine List.map_congr_left fun i hi => ?_
  rw [Nat.mod_eq_of_lt (by have := List.mem_range.1 hi; omega)]

/-- Every range of a segment that is on the bus. -/
def SegOk (s : Seg) : Prop := OnBus s.addr s.len

theorem SegOk.le {s : Seg} (h : SegOk s) (hl : s.len ≠ 0) : s.addr + s.len ≤ busSize := by
  have := h (s.len - 1) (by omega)
  omega

/-- A piece of a segment on the bus is read as it lies. -/
theorem dmaRead_seg {s : Seg} (h : SegOk s) {off k : Nat} (hoff : off < s.len)
    (hk : k ≤ s.len - off) : dmaRead m ((s.addr + off) % 2 ^ 64) k =
      some ((List.range k).map fun i => m (s.addr + (off + i))) := by
  have hle := h.le (by omega)
  have hb : busSize = 2 ^ 32 := rfl
  rw [Nat.mod_eq_of_lt (by omega)]
  unfold dmaRead
  by_cases h0 : k = 0
  · rw [if_pos h0, h0]
    rfl
  · rw [if_neg h0, Nat.mod_eq_of_lt (by omega), if_neg (by omega), fetch_eq (by omega)]
    simp only [Nat.add_assoc]

theorem drop_seg (s : Seg) (off : Nat) : ((List.range s.len).map (s.addr + ·)).drop off =
    (List.range (s.len - off)).map fun i => s.addr + (off + i) := by
  refine List.ext_getElem (by simp) fun i _ _ => ?_
  simp

/-- An offset past a segment, and one in it. -/
theorem drop_past {s : Seg} {off : Nat} (h : s.len ≤ off) (ys : List Nat) :
    ((List.range s.len).map (s.addr + ·) ++ ys).drop off = ys.drop (off - s.len) := by
  have hlen : ((List.range s.len).map (s.addr + ·)).length = s.len := by simp
  rw [List.drop_append, List.drop_eq_nil_of_le (by omega), hlen, List.nil_append]

theorem drop_within {s : Seg} {off : Nat} (h : off < s.len) (ys : List Nat) :
    ((List.range s.len).map (s.addr + ·) ++ ys).drop off =
      (List.range (s.len - off)).map (fun i => s.addr + (off + i)) ++ ys := by
  rw [List.drop_append_of_le_length (by simpa using Nat.le_of_lt h), drop_seg]

theorem chainRead_eq {segs : List Seg} (h : ∀ s ∈ segs, s.write = false → SegOk s) (off n : Nat) :
    chainRead m segs off n = (((segAddrs false segs).drop off).take n).map m := by
  induction segs generalizing off n with
  | nil => simp [chainRead, segAddrs]
  | cons s segs ih =>
    have ih := fun off n => ih (fun t ht => h t (List.mem_cons_of_mem s ht)) off n
    rw [chainRead, segAddrs_cons]
    by_cases hw : s.write = true
    · rw [if_pos hw, if_neg (by simp [hw]), List.nil_append, ih]
    rw [if_neg hw]
    rw [Bool.not_eq_true] at hw
    rw [if_pos hw]
    by_cases hoff : s.len ≤ off
    · rw [if_pos hoff, ih, drop_past hoff]
    rw [if_neg hoff, drop_within (by omega)]
    dsimp only
    rw [dmaRead_seg (h s List.mem_cons_self hw) (by omega) (Nat.min_le_left _ _)]
    dsimp only
    by_cases hn : min (s.len - off) n = n
    · rw [if_pos hn, hn, List.take_append_of_le_length (by simp; omega), ← List.map_take,
        List.take_range, Nat.min_comm, hn, List.map_map]
      rfl
    · have hmin : min (s.len - off) n = s.len - off := by omega
      have hall : ((List.range (s.len - off)).map fun i => s.addr + (off + i)).take n =
          (List.range (s.len - off)).map fun i => s.addr + (off + i) :=
        List.take_of_length_le (by rw [List.length_map, List.length_range]; omega)
      rw [if_neg hn, hmin, ih, List.drop_zero, List.take_append, hall, List.map_append, List.map_map,
        List.length_map, List.length_range]
      rfl

/-- Only as many addresses count as there are bytes. -/
theorem zip_left_append {xs ys : List Nat} {bs : List (BitVec 8)} (h : bs.length ≤ xs.length) :
    (xs ++ ys).zip bs = xs.zip bs := by
  induction xs generalizing bs with
  | nil =>
    obtain rfl := List.length_eq_zero_iff.1 (Nat.le_zero.1 h)
    simp
  | cons x xs ih =>
    cases bs with
    | nil => simp
    | cons b bs =>
      rw [List.cons_append, List.zip_cons_cons, List.zip_cons_cons, ih (by simpa using h)]

theorem storeAt_append (l l' : List (Nat × BitVec 8)) :
    storeAt m (l ++ l') = storeAt (storeAt m l) l' := List.foldl_append

theorem store_eq {a : Nat} {bs : List (BitVec 8)} (h : a + bs.length ≤ busSize) :
    store busSize m a bs = storeAt m (((List.range bs.length).map (a + ·)).zip bs) := by
  induction bs generalizing a m with
  | nil => rfl
  | cons b bs ih =>
    rw [List.length_cons] at h
    rw [store, ih (by omega), Nat.mod_eq_of_lt (by omega), List.length_cons, List.range_succ_eq_map,
      List.map_cons, List.map_map, List.zip_cons_cons, Nat.add_zero]
    have hmap : (List.range bs.length).map (a + 1 + ·) =
        (List.range bs.length).map ((a + ·) ∘ Nat.succ) :=
      List.map_congr_left fun i _ => by simp only [Function.comp_apply]; omega
    rw [hmap]
    rfl

/-- A piece of a segment on the bus is written as it lies. -/
theorem dmaWrite_seg {s : Seg} (h : SegOk s) {off : Nat} {bs : List (BitVec 8)}
    (hoff : off < s.len) (hk : bs.length ≤ s.len - off) :
    dmaWrite m ((s.addr + off) % 2 ^ 64) bs =
      some (storeAt m (((List.range (s.len - off)).map fun i => s.addr + (off + i)).zip bs)) := by
  have hle := h.le (by omega)
  have hb : busSize = 2 ^ 32 := rfl
  rw [Nat.mod_eq_of_lt (by omega)]
  unfold dmaWrite
  by_cases h0 : bs = []
  · rw [if_pos h0, h0, List.zip_nil_right]
    rfl
  · rw [if_neg h0, Nat.mod_eq_of_lt (by omega), if_neg (by omega), store_eq (by omega)]
    obtain ⟨k, hk'⟩ := Nat.exists_eq_add_of_le hk
    rw [hk', List.range_add, List.map_append, zip_left_append (by simp)]
    simp only [Nat.add_assoc]

theorem chainWrite_eq {segs : List Seg} (h : ∀ s ∈ segs, s.write = true → SegOk s) (off : Nat)
    (bs : List (BitVec 8)) : chainWrite m segs off bs =
      (min bs.length ((segAddrs true segs).length - off),
        storeAt m (((segAddrs true segs).drop off).zip bs)) := by
  induction segs generalizing off bs m with
  | nil => simp [chainWrite, segAddrs, storeAt]
  | cons s segs ih =>
    have ih := fun m off bs => @ih m (fun t ht => h t (List.mem_cons_of_mem s ht)) off bs
    rw [chainWrite, segAddrs_cons]
    by_cases hw : s.write = true
    · rw [if_neg (by simp [hw]), if_pos hw]
      have hlen : ∀ ys : List Nat, ((List.range s.len).map (s.addr + ·) ++ ys).length =
          s.len + ys.length := fun ys => by simp
      rw [hlen]
      by_cases hoff : s.len ≤ off
      · rw [if_pos hoff, ih, drop_past hoff]
        congr 2
        omega
      rw [if_neg hoff, drop_within (by omega)]
      dsimp only
      have htake : (bs.take (min (s.len - off) bs.length)).length = min (s.len - off) bs.length := by
        rw [List.length_take]
        omega
      rw [dmaWrite_seg (h s List.mem_cons_self hw) (by omega) (by omega)]
      dsimp only
      by_cases hn : min (s.len - off) bs.length = bs.length
      · rw [if_pos hn, hn, List.take_length]
        refine Prod.ext (by dsimp only; omega) ?_
        dsimp only
        rw [zip_left_append (by simp; omega)]
      · have hmin : min (s.len - off) bs.length = s.len - off := by omega
        rw [if_neg hn, hmin, ih]
        refine Prod.ext ?_ ?_
        · dsimp only
          rw [List.length_drop]
          omega
        · dsimp only
          rw [List.drop_zero, ← storeAt_append, ← List.zip_append (by simp; omega),
            List.take_append_drop]
    · rw [Bool.not_eq_true] at hw
      rw [if_pos (by simp [hw]), if_neg (by simp [hw]), List.nil_append, ih]

/-! ## The range check -/

theorem onBus_iff {a n : Nat} : OnBus a n ↔ n = 0 ∨ a + n ≤ busSize := by
  constructor
  · intro h
    by_cases h0 : n = 0
    · exact .inl h0
    · have := h (n - 1) (by omega)
      exact .inr (by omega)
  · intro h i hi
    omega

theorem dmaRead_none_iff {a n : Nat} :
    dmaRead m a n = none ↔ n ≠ 0 ∧ busSize < (a + n) % 2 ^ 64 := by
  unfold dmaRead
  by_cases h0 : n = 0
  · simp [h0]
  · by_cases hr : busSize < (a + n) % 2 ^ 64
    · rw [if_neg h0, if_pos hr]
      exact iff_of_true rfl ⟨h0, hr⟩
    · rw [if_neg h0, if_neg hr]
      exact iff_of_false (by simp) fun h => hr h.2

theorem dmaWrite_none_iff {a : Nat} {bs : List (BitVec 8)} :
    dmaWrite m a bs = none ↔ bs.length ≠ 0 ∧ busSize < (a + bs.length) % 2 ^ 64 := by
  unfold dmaWrite
  by_cases h0 : bs = []
  · simp [h0]
  · have hl : bs.length ≠ 0 := fun h => h0 (List.length_eq_zero_iff.1 h)
    by_cases hr : busSize < (a + bs.length) % 2 ^ 64
    · rw [if_neg h0, if_pos hr]
      exact iff_of_true rfl ⟨hl, hr⟩
    · rw [if_neg h0, if_neg hr]
      exact iff_of_false (by simp) fun h => hr h.2

/-- The check is wrong where the end of the range wraps to an address on the bus. -/
theorem range_check_iff {a n : Nat} (ha : a < 2 ^ 64) (hn : n < 2 ^ 64) :
    ((n ≠ 0 ∧ busSize < (a + n) % 2 ^ 64) ↔ ¬OnBus a n) ↔
      ¬(2 ^ 64 ≤ a + n ∧ a + n ≤ 2 ^ 64 + busSize) := by
  have hb : busSize = 2 ^ 32 := rfl
  rw [onBus_iff]
  by_cases hw : a + n < 2 ^ 64
  · rw [Nat.mod_eq_of_lt hw]
    omega
  · have hmod : (a + n) % 2 ^ 64 = a + n - 2 ^ 64 := by omega
    rw [hmod]
    omega

/-! ## Chains -/

/-- The walk of a chain ends, accepts only linked descriptors of the queue's table or of that and
one indirect table, and the transfers over a chain whose segments are on the bus move the bytes
asked for of its segments end to end. A range is refused where it leaves the bus, except where its
end, computed in 64 bits, wraps to an address on it. -/
theorem chains_walked (m : GuestMem) :
    (∀ pfn head, head < kQueueSize →
      walkTurns m (2 ^ 28 + 257) (walkStart pfn head) = some (walkChain m pfn head)) ∧
    (∀ pfn head c, walkChain m pfn head = some c → c.head = head ∧ c.Counted ∧
      (Plain m (descBase pfn) kQueueSize head c.segs ∨
        ThroughIndirect m (descBase pfn) kQueueSize head c.segs)) ∧
    (∀ segs off n, (∀ s ∈ segs, s.write = false → OnBus s.addr s.len) →
      chainRead m segs off n = (((segAddrs false segs).drop off).take n).map m) ∧
    (∀ segs off bs, (∀ s ∈ segs, s.write = true → OnBus s.addr s.len) →
      chainWrite m segs off bs = (min bs.length ((segAddrs true segs).length - off),
        storeAt m (((segAddrs true segs).drop off).zip bs))) ∧
    (∀ a n, a < 2 ^ 64 → n < 2 ^ 64 →
      ((dmaRead m a n = none ↔ ¬OnBus a n) ↔
        ¬(2 ^ 64 ≤ a + n ∧ a + n ≤ 2 ^ 64 + busSize))) ∧
    (∀ a bs, a < 2 ^ 64 → bs.length < 2 ^ 64 →
      ((dmaWrite m a bs = none ↔ ¬OnBus a bs.length) ↔
        ¬(2 ^ 64 ≤ a + bs.length ∧ a + bs.length ≤ 2 ^ 64 + busSize))) := by
  refine ⟨fun pfn head hh => walk_ends m pfn hh, fun pfn head c hc => walkChain_linked hc,
    fun segs off n hs => chainRead_eq hs off n, fun segs off bs hs => chainWrite_eq hs off bs,
    fun a n ha hn => ?_, fun a bs ha hn => ?_⟩
  · rw [dmaRead_none_iff]
    exact range_check_iff ha hn
  · rw [dmaWrite_none_iff]
    exact range_check_iff ha hn

/-- Four bytes from the third on of two segments, one of them for writing, and an empty one. -/
theorem chains_walked_slice :
    chainRead (fun a => BitVec.ofNat 8 a)
      [⟨16, 4, false⟩, ⟨100, 9, true⟩, ⟨7, 0, false⟩, ⟨32, 4, false⟩] 2 4 = [18, 19, 32, 33] := by
  refine ((chains_walked fun a => BitVec.ofNat 8 a).2.2.1 _ 2 4 ?_).trans (by decide)
  intro s hs _ i hi
  simp only [List.mem_cons, List.not_mem_nil, or_false] at hs
  have hb : busSize = 2 ^ 32 := rfl
  obtain rfl | rfl | rfl | rfl := hs
  all_goals
    dsimp only at hi ⊢
    omega

/-- Two bytes from the last 64-bit address on are not refused. -/
theorem range_at_the_end_accepted : ¬∀ (m : GuestMem) (a n : Nat), a < 2 ^ 64 → n < 2 ^ 64 →
    ¬OnBus a n → dmaRead m a n = none := by
  intro h
  have hout : ¬OnBus (2 ^ 64 - 1) 2 := by
    rw [onBus_iff]
    have hb : busSize = 2 ^ 32 := rfl
    omega
  have hnone := dmaRead_none_iff.1 (h (fun _ => 0) (2 ^ 64 - 1) 2 (by omega) (by omega) hout)
  exact absurd hnone.2 (by decide)

end Alphabox.Pci
