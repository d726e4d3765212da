import Alphabox.Pci.IspTransfer

/-!
# What an ISP10x0 command moves

A command's segments, as the driver lays them out, are those in its entry and in the continuation
entries that follow it in the ring, as many as it counts (`allSegments`); their bytes are a list of
bus addresses. A command that moves the right bytes takes its data phases from that list in order,
reports what is left of it and is a success only if the list was long enough.
-/

namespace Alphabox.Pci

open Lib (leNat fetch)

/-! ## What the driver asked for -/

/-- A segment: `count` bytes at an address of 32 bits or, when it is `wide`, 64. -/
structure DataSegment where
  address : Nat
  count : Nat
  wide : Bool

/-- The bus addresses of a segment's bytes. -/
def DataSegment.bytes (s : DataSegment) : List Nat :=
  (List.range s.count).map fun i => (s.address + i) % (if s.wide then 2 ^ 64 else 2 ^ 32)

/-- The segment at byte `start` of an entry: an address of four bytes or eight, and a count of
four. -/
def segmentAt (entry : List (BitVec 8)) (wide : Bool) (start : Nat) : DataSegment where
  address := leNat ((entry.drop start).take (if wide then 8 else 4))
  count := leNat ((entry.drop (start + if wide then 8 else 4)).take 4)
  wide := wide

/-- `n` segments one after another from byte `first` on. -/
def segmentsFrom (entry : List (BitVec 8)) (wide : Bool) (first n : Nat) : List DataSegment :=
  (List.range n).map fun i => segmentAt entry wide (first + i * if wide then 12 else 8)

/-- The segments in a command: two in a 64-bit one (type 9), four in the others. -/
def commandSegments (entry : List (BitVec 8)) : List DataSegment :=
  if entry.getD 0 0 = 0x09 then segmentsFrom entry true 0x20 2 else segmentsFrom entry false 0x20 4

/-- A continuation entry: of type 2, or of type 10 with 64-bit addresses. -/
def isContinuation (entry : List (BitVec 8)) : Bool :=
  entry.getD 0 0 = 0x02 || entry.getD 0 0 = 0x0a

def continuationSegments (entry : List (BitVec 8)) : List DataSegment :=
  if entry.getD 0 0 = 0x0a then segmentsFrom entry true 0x04 5 else segmentsFrom entry false 0x08 7

/-- The `n` entries of the ring from slot `s` on, around its end. -/
def ringEntries (m : Nat → BitVec 8) (q : IspRing) (s n : Nat) : List (List (BitVec 8)) :=
  (List.range n).map fun i => fetch ispBus m (q.base + (s + i) % q.length * 64) 64

/-- How many segments a command counts, in 16 bits. -/
def segmentCount (m : Nat → BitVec 8) (entryAddress : Nat) : Nat :=
  leNat (fetch ispBus m (entryAddress + 0x12) 2)

/-- The ring's slot at an address. -/
def slotOf (q : IspRing) (entryAddress : Nat) : Nat :=
  (entryAddress + ispBus - q.base) % ispBus / 64

/-- All the segments of a command: those in it, then those of the slots after it while these are
continuation entries, as many as it counts. Each entry has one at least, so that no more entries
than that are needed. -/
def allSegments (m : Nat → BitVec 8) (q : IspRing) (entryAddress : Nat) : List DataSegment :=
  let n := segmentCount m entryAddress
  let following := (ringEntries m q (slotOf q entryAddress + 1) n).takeWhile isContinuation
  (commandSegments (fetch ispBus m entryAddress 64) ++
    following.flatMap continuationSegments).take n

/-- The bytes of all the segments. -/
def allBytes (m : Nat → BitVec 8) (q : IspRing) (entryAddress : Nat) : List Nat :=
  (allSegments m q entryAddress).flatMap DataSegment.bytes

namespace TargetPhase

/-- How many bytes a target takes or gives in a phase. -/
def size : TargetPhase → Nat
  | dataIn bytes => bytes.length
  | dataOut count => count
  | _ => 0

/-- COMMAND COMPLETE. -/
def complete : TargetPhase → Bool
  | msgIn bytes => decide (bytes.head? = some 0)
  | _ => false

/-- The phases of a command: up to COMMAND COMPLETE. -/
def ofCommand : List TargetPhase → List TargetPhase
  | [] => []
  | p :: rest => if p.complete then [p] else p :: ofCommand rest

/-- How many bytes a target takes and gives. -/
def asked (phases : List TargetPhase) : Nat := ((ofCommand phases).map size).sum

/-- The status byte a target ends with, GOOD if it gives none. -/
def lastStatus (phases : List TargetPhase) : BitVec 8 :=
  (ofCommand phases).foldl (fun s p => match p with | status byte => byte | _ => s) 0

/-- Whether the last bytes that go either way go to the target. -/
def endsOut (phases : List TargetPhase) : Bool :=
  (ofCommand phases).foldl
    (fun out p => if p.size = 0 then out else match p with | dataOut _ => true | _ => false) false

/-- The moves of a phase at the addresses `here`. -/
def movesAt (m : Nat → BitVec 8) (here : List Nat) : TargetPhase → List IspMove
  | dataIn bytes => (here.zip bytes).map fun x => ⟨x.1, x.2, true⟩
  | dataOut _ => here.map fun a => ⟨a, m a, false⟩
  | _ => []

end TargetPhase

/-- The phases of a target that was selected. -/
def IspTarget.phases : IspTarget → List TargetPhase
  | .selected phases _ => phases
  | _ => []

/-- Moves to memory done in order. -/
def applyMoves (m : Nat → BitVec 8) (moves : List IspMove) : Nat → BitVec 8 :=
  moves.foldl (fun m x => if x.toMemory then Function.update m x.address x.byte else m) m

/-- The phases of a command, each with the next bytes of `addresses`: memory and the moves. -/
def copyInOrder (m : Nat → BitVec 8) (addresses : List Nat) :
    List TargetPhase → (Nat → BitVec 8) × List IspMove
  | [] => (m, [])
  | p :: rest =>
    let moves := p.movesAt m (addresses.take p.size)
    let r := copyInOrder (applyMoves m moves) (addresses.drop p.size) rest
    (r.1, moves ++ r.2)

/-- The command moves the right bytes or says that it did not. -/
structure MovesRight (m : Nat → BitVec 8) (q : IspRing) (entryAddress : Nat) (target : IspTarget)
    (r : IspResult) : Prop where
  moves : (r.mem, r.moves) = copyInOrder m (allBytes m q entryAddress)
    (TargetPhase.ofCommand target.phases)
  residual : r.outcome.residual.toNat + r.moves.length = (allBytes m q entryAddress).length
  success : r.outcome.completion = ISP_STATUS_COMPLETE → r.outcome.scsiStatus = 0 →
    TargetPhase.asked target.phases ≤ (allBytes m q entryAddress).length

/-- What the adapter can do right: the segments past the 64th are empty, the bytes the target asks
for lie below 4 GiB, less than 4 GiB is left over, and a target that asks for more than the
segments hold either does not end with GOOD or has data for the host last. -/
structure WithinAdapter (m : Nat → BitVec 8) (q : IspRing) (entryAddress : Nat)
    (target : IspTarget) : Prop where
  collected : ((allSegments m q entryAddress).drop 64).flatMap DataSegment.bytes = []
  narrow : ∀ a ∈ (allBytes m q entryAddress).take (TargetPhase.asked target.phases), a < 2 ^ 32
  leftOver : (allBytes m q entryAddress).length - TargetPhase.asked target.phases < 2 ^ 32
  supplied : TargetPhase.asked target.phases ≤ (allBytes m q entryAddress).length ∨
    TargetPhase.lastStatus target.phases ≠ 0 ∨ TargetPhase.endsOut target.phases = false

/-! ## Gathering -/

variable {m : Nat → BitVec 8} {q : IspRing} {w slot entryAddress : Nat} {found : List SegPlace}

theorem continuations_of_le (h : w ≤ found.length) : continuations m q w slot found = found := by
  rw [continuations, dif_neg (by omega)]

/-- The walk from a slot on adds the segments of the continuation entries there, as many as are
still wanted. -/
theorem continuations_eq {t n : Nat} (hn : w - found.length ≤ n) (hf : found.length ≤ w) :
    continuations m q w (t % q.length) found =
      (found ++ ((ringEntries m q t n).takeWhile isContinuation).flatMap contPlaces).take w := by
  induction n generalizing t found with
  | zero =>
    rw [continuations_of_le (by omega), List.take_append_of_le_length (by omega),
      List.take_of_length_le hf]
  | succ n ih =>
    by_cases hlt : found.length < w
    · have hring : ringEntries m q t (n + 1) =
          fetch ispBus m (q.base + t % q.length * entrySize) entrySize ::
            ringEntries m q (t + 1) n := by
        rw [ringEntries, List.range_succ_eq_map, List.map_cons, List.map_map]
        congr 1
        refine List.map_congr_left fun i _ => ?_
        rw [Function.comp_apply, Nat.succ_eq_add_one, Nat.add_right_comm, Nat.add_assoc]
      rw [continuations, dif_pos hlt, hring]
      generalize fetch ispBus m (q.base + t % q.length * entrySize) entrySize = cont
      have hcont := length_contPlaces cont
      simp only
      split
      · -- the walk stops at the first entry that is not a continuation
        rename_i hother
        have hstop : isContinuation cont = false := by
          simpa [isContinuation, ISP_ENTRY_TYPE_DATASEG, ISP_ENTRY_TYPE_A64_CONT] using hother
        rw [List.takeWhile_cons, hstop, if_neg Bool.false_ne_true, List.flatMap_nil,
          List.append_nil, List.take_of_length_le hf]
      · rename_i hother
        have hgo : isContinuation cont = true := by
          rw [not_and_or, not_not, not_not] at hother
          simpa [isContinuation, ISP_ENTRY_TYPE_DATASEG, ISP_ENTRY_TYPE_A64_CONT] using hother
        have hnext : (t % q.length + 1) % q.length = (t + 1) % q.length := Nat.mod_add_mod t _ 1
        rw [hnext, ih, List.takeWhile_cons, hgo, if_pos rfl, List.flatMap_cons, List.append_assoc,
          List.take_append, @List.take_append _ found, List.take_append, List.take_append,
          List.take_take, List.length_take, Nat.min_self]
        · congr 3
          omega
        all_goals
          rw [List.length_append, List.length_take]
          omega
    · rw [continuations_of_le (by omega), List.take_append_of_le_length (by omega),
        List.take_of_length_le hf]

/-- The segment that stands at a place. -/
def SegPlace.segment (p : SegPlace) : DataSegment := ⟨p.address + 2 ^ 32 * p.high, p.count, p.wide⟩

/-- A 64-bit address is read as two halves. -/
theorem segment_eq {entry : List (BitVec 8)} (wide : Bool) {start : Nat}
    (h : start + 4 ≤ entry.length) :
    (SegPlace.mk entry start wide).segment = segmentAt entry wide start := by
  cases wide with
  | true =>
    have hsplit : (entry.drop start).take (4 + 4) =
        (entry.drop start).take 4 ++ (entry.drop (start + 4)).take 4 := by
      rw [List.take_add, List.drop_drop]
    have hlen : ((entry.drop start).take 4).length = 4 := by
      rw [List.length_take, List.length_drop]
      omega
    have haddress : leNat ((entry.drop start).take 8) = leNat ((entry.drop start).take 4) +
        2 ^ 32 * leNat ((entry.drop (start + 4)).take 4) := by
      rw [hsplit, Lib.leNat_append, hlen]
      rfl
    simp only [SegPlace.segment, segmentAt, SegPlace.address, SegPlace.high, SegPlace.count,
      SegPlace.dword, if_true, haddress]
  | false => rfl

theorem entryPlaces_segments {entry : List (BitVec 8)} (h : entry.length = 64) :
    (entryPlaces entry).map SegPlace.segment = commandSegments entry := by
  unfold entryPlaces commandSegments segmentsFrom
  by_cases ha : entry.getD 0 0 = ISP_ENTRY_TYPE_A64
  · rw [if_pos (show entry.getD 0 0 = 0x09 from ha)]
    simp only [ha, decide_true, if_true, List.map_map]
    refine List.map_congr_left fun i hi => segment_eq true ?_
    have := List.mem_range.mp hi
    omega
  · rw [if_neg (show entry.getD 0 0 ≠ 0x09 from ha)]
    simp only [ha, decide_false, Bool.false_eq_true, if_false, List.map_map]
    refine List.map_congr_left fun i hi => segment_eq false ?_
    have := List.mem_range.mp hi
    omega

theorem contPlaces_segments {cont : List (BitVec 8)} (h : cont.length = 64) :
    (contPlaces cont).map SegPlace.segment = continuationSegments cont := by
  unfold contPlaces continuationSegments segmentsFrom
  by_cases ha : cont.getD 0 0 = ISP_ENTRY_TYPE_A64_CONT
  · rw [if_pos (show cont.getD 0 0 = 0x0a from ha)]
    simp only [ha, decide_true, if_true, List.map_map]
    refine List.map_congr_left fun i hi => segment_eq true ?_
    have := List.mem_range.mp hi
    omega
  · rw [if_neg (show cont.getD 0 0 ≠ 0x0a from ha)]
    simp only [ha, decide_false, Bool.false_eq_true, if_false, List.map_map]
    refine List.map_congr_left fun i hi => segment_eq false ?_
    have := List.mem_range.mp hi
    omega

/-- The adapter collects the first 64 segments. -/
theorem segmentPlaces_eq : (segmentPlaces m q entryAddress 64).map SegPlace.segment =
    (allSegments m q entryAddress).take 64 := by
  have hentry (a : Nat) : (fetch ispBus m a 64).length = 64 := by simp [fetch]
  simp only [segmentPlaces, allSegments, segmentCount]
  generalize leNat (fetch ispBus m (entryAddress + 0x12) 2) = n
  have hslot : ((entryAddress + ispBus - q.base) % ispBus / entrySize + 1) % q.length =
      (slotOf q entryAddress + 1) % q.length := rfl
  have htake (l r : List SegPlace) (k : Nat) : (l.take k ++ r).take k = (l ++ r).take k := by
    rw [List.take_append, List.take_append, List.take_take, Nat.min_self, List.length_take]
    congr 2
    omega
  have hconts : ∀ l : List (List (BitVec 8)), (∀ e ∈ l, e.length = 64) →
      (l.flatMap contPlaces).map SegPlace.segment = l.flatMap continuationSegments := by
    intro l hl
    rw [List.map_flatMap]
    exact List.flatMap_congr fun e he => contPlaces_segments (hl e he)
  rw [hslot, continuations_eq (n := n) (by rw [List.length_take]; omega)
      (by rw [List.length_take]; omega), htake, List.map_take, List.map_append,
    entryPlaces_segments (hentry entryAddress), hconts, List.take_take, Nat.min_comm]
  intro e he
  obtain ⟨i, -, rfl⟩ := List.mem_map.mp ((List.takeWhile_sublist _).subset he)
  exact hentry _

/-! ## Spreading a data phase -/

/-- The addresses of the bytes that are left from `offset` in the first segment on. -/
def bytesFrom (offset : Nat) : List IspSegment → List Nat
  | [] => []
  | s :: rest => ((List.range (s.count - offset)).map fun i => (s.address + offset + i) % ispBus) ++
      bytesFrom 0 rest

/-- The offset is one in the first segment. -/
def OffsetOk (offset : Nat) : List IspSegment → Prop
  | [] => True
  | s :: _ => offset ≤ s.count

theorem offsetOk_zero (segs : List IspSegment) : OffsetOk 0 segs := by
  cases segs with
  | nil => trivial
  | cons s rest => exact Nat.zero_le _

/-- A phase takes the next bytes of the segments. -/
theorem spread_spec (left offset : Nat) (segs : List IspSegment) (h : OffsetOk offset segs) :
    (spread left offset segs).1 = (bytesFrom offset segs).take left ∧
      bytesFrom (spread left offset segs).2.2.1 (spread left offset segs).2.1 =
        (bytesFrom offset segs).drop left ∧
      (spread left offset segs).2.2.2 = left - (bytesFrom offset segs).length ∧
      OffsetOk (spread left offset segs).2.2.1 (spread left offset segs).2.1 := by
  induction segs generalizing left offset with
  | nil => exact ⟨List.take_nil.symm, List.drop_nil.symm, rfl, trivial⟩
  | cons s rest ih =>
    have hle : offset ≤ s.count := h
    have hlen : ((List.range (s.count - offset)).map fun i =>
        (s.address + offset + i) % ispBus).length = s.count - offset := by simp
    rw [spread]
    by_cases h0 : left = 0
    · rw [if_pos h0, h0]
      exact ⟨rfl, rfl, (Nat.zero_sub _).symm, h⟩
    · rw [if_neg h0]
      by_cases hend : offset + min left (s.count - offset) = s.count
      · have hmin : min left (s.count - offset) = s.count - offset := by omega
        rw [hmin] at hend
        simp only [hmin, hend, if_true]
        obtain ⟨h1, h2, h3, h4⟩ := ih (left - (s.count - offset)) 0 (offsetOk_zero rest)
        refine ⟨?_, ?_, ?_, h4⟩
        · rw [h1, bytesFrom, List.take_append, hlen,
            List.take_of_length_le (show _ ≤ left by rw [hlen]; omega)]
        · rw [h2, bytesFrom, List.drop_append, hlen,
            List.drop_of_length_le (show _ ≤ left by rw [hlen]; omega), List.nil_append]
        · rw [h3, bytesFrom, List.length_append, hlen]
          omega
      · have hmin : min left (s.count - offset) = left := by omega
        rw [hmin] at hend
        simp only [hmin, hend, if_false]
        refine ⟨?_, ?_, ?_, ?_⟩
        · rw [bytesFrom, List.take_append_of_le_length (by rw [hlen]; omega), ← List.map_take,
            List.take_range, Nat.min_eq_left (by omega)]
        · rw [bytesFrom, bytesFrom, List.drop_append_of_le_length (by rw [hlen]; omega)]
          congr 1
          refine List.ext_getElem (by simp; omega) fun i h1 h2 => ?_
          simp [Nat.add_assoc]
        · rw [bytesFrom, List.length_append, hlen]
          omega
        · show offset + left ≤ s.count
          omega

/-! ## The data phases of a command -/

namespace IspRun

open TargetPhase

variable {r : IspRun} {cdb : List (BitVec 8)} {lun : BitVec 8}

/-- What is left of the segments. -/
def rest (r : IspRun) : List Nat := bytesFrom r.offset r.segments

theorem storeAll_eq (m : Nat → BitVec 8) (l : List (Nat × BitVec 8)) :
    storeAll m l = applyMoves m (l.map fun x => ⟨x.1, x.2, true⟩) := by
  rw [storeAll, applyMoves, List.foldl_map]
  rfl

theorem applyMoves_out (m : Nat → BitVec 8) (l : List (Nat × BitVec 8)) :
    applyMoves m (l.map fun x => ⟨x.1, x.2, false⟩) = m := by
  rw [applyMoves, List.foldl_map]
  induction l with
  | nil => rfl
  | cons x l ih => exact ih

/-- The phase that `dataPhase` runs. -/
def phaseOf (toMemory : Bool) (chunk : Nat) (bytes : List (BitVec 8)) : TargetPhase :=
  if toMemory then .dataIn bytes else .dataOut chunk

/-- A data phase. -/
theorem dataPhase_spec (h : OffsetOk r.offset r.segments) (toMemory : Bool) (chunk : Nat)
    (bytes : List (BitVec 8)) :
    (r.dataPhase toMemory chunk bytes).mem = applyMoves r.mem
        ((phaseOf toMemory chunk bytes).movesAt r.mem (r.rest.take chunk)) ∧
      (r.dataPhase toMemory chunk bytes).moves = r.moves ++
        (phaseOf toMemory chunk bytes).movesAt r.mem (r.rest.take chunk) ∧
      (r.dataPhase toMemory chunk bytes).rest = r.rest.drop chunk ∧
      OffsetOk (r.dataPhase toMemory chunk bytes).offset (r.dataPhase toMemory chunk bytes).segments ∧
      (r.dataPhase toMemory chunk bytes).moved =
        r.moved + BitVec.ofNat 32 (min chunk r.rest.length) ∧
      (r.dataPhase toMemory chunk bytes).completion = (if chunk ≤ r.rest.length then r.completion
        else if toMemory then ISP_STATUS_DATA_OVERRUN else ISP_STATUS_COMPLETE) ∧
      (r.dataPhase toMemory chunk bytes).scsiStatus = r.scsiStatus := by
  obtain ⟨h1, h2, h3, h4⟩ := spread_spec chunk r.offset r.segments h
  simp only [dataPhase]
  generalize spread chunk r.offset r.segments = sp at h1 h2 h3 h4
  obtain ⟨addresses, segments, offset, left⟩ := sp
  simp only at h1 h2 h3 h4
  subst h1
  refine ⟨?_, ?_, h2, h4, ?_, ?_, trivial⟩
  · cases toMemory with
    | true => exact storeAll_eq _ _
    | false =>
      refine Eq.symm ?_
      have := applyMoves_out r.mem ((r.rest.take chunk).map fun a => (a, r.mem a))
      rwa [List.map_map] at this
  · cases toMemory with
    | true => rfl
    | false => simp [phaseOf, movesAt, rest, Function.comp_def]
  · rw [List.length_take]
    rfl
  · rw [h3]
    by_cases hle : chunk ≤ (bytesFrom r.offset r.segments).length
    · exact (if_neg (not_not_intro (Nat.sub_eq_zero_of_le hle))).trans (if_pos hle).symm
    · have hne : chunk - (bytesFrom r.offset r.segments).length ≠ 0 := by omega
      exact (if_pos hne).trans (if_neg hle).symm

/-- One step of `endsOut`. -/
def outStep (out : Bool) (p : TargetPhase) : Bool :=
  if p.size = 0 then out else match p with | .dataOut _ => true | _ => false

/-- One step of `lastStatus`. -/
def statusStep (s : BitVec 8) (p : TargetPhase) : BitVec 8 :=
  match p with | .status byte => byte | _ => s

/-- What the phases `ps` of a command make of it. -/
structure Follows (r r' : IspRun) (ps : List TargetPhase) : Prop where
  mem : r'.mem = (copyInOrder r.mem r.rest ps).1
  moves : r'.moves = r.moves ++ (copyInOrder r.mem r.rest ps).2
  moved : r'.moved = r.moved + BitVec.ofNat 32 (min (ps.map size).sum r.rest.length)
  /-- Where the phases want more than is left, the last one with bytes decides. -/
  completion : ∀ b, r'.completion = if (ps.map size).sum ≤ r.rest.length then r.completion
    else if ps.foldl outStep b then ISP_STATUS_COMPLETE else ISP_STATUS_DATA_OVERRUN
  status : ∀ s : BitVec 8, r.scsiStatus = s.setWidth 16 →
    r'.scsiStatus = (ps.foldl statusStep s).setWidth 16

theorem Follows.nil (r : IspRun) : Follows r r [] where
  mem := rfl
  moves := (List.append_nil _).symm
  moved := by simp
  completion b := by simp
  status s h := h

/-- A phase without data before the others. -/
theorem Follows.quiet {r0 r' : IspRun} {p : TargetPhase} {ps : List TargetPhase}
    (hp : p.size = 0) (hm : p.movesAt r.mem [] = []) (h : Follows r0 r' ps)
    (hmem : r0.mem = r.mem) (hmv : r0.moves = r.moves) (hrest : r0.rest = r.rest)
    (hmoved : r0.moved = r.moved) (hcomp : r0.completion = r.completion)
    (hst : ∀ s : BitVec 8, r.scsiStatus = s.setWidth 16 →
      r0.scsiStatus = (statusStep s p).setWidth 16) : Follows r r' (p :: ps) where
  mem := by
    rw [h.mem, copyInOrder, hp, List.take_zero, hm, List.drop_zero, hmem, hrest]
    rfl
  moves := by
    rw [h.moves, copyInOrder, hp, List.take_zero, hm, List.drop_zero, hmem, hrest, hmv]
    rfl
  moved := by rw [h.moved, hmoved, hrest, List.map_cons, List.sum_cons, hp, Nat.zero_add]
  completion b := by
    rw [h.completion (outStep b p), hrest, hcomp, List.map_cons, List.sum_cons, hp, Nat.zero_add,
      List.foldl_cons]
  status s hs := by rw [List.foldl_cons, h.status _ (hst s hs)]

theorem foldl_outStep {ps : List TargetPhase} {b : Bool} (h : (ps.map size).sum = 0) :
    ps.foldl outStep b = b := by
  induction ps generalizing b with
  | nil => rfl
  | cons p ps ih =>
    rw [List.map_cons, List.sum_cons] at h
    rw [List.foldl_cons, ih (by omega)]
    exact if_pos (by omega)

theorem outStep_phaseOf {toMemory b : Bool} {chunk : Nat} {bytes : List (BitVec 8)}
    (h : (phaseOf toMemory chunk bytes).size ≠ 0) :
    outStep b (phaseOf toMemory chunk bytes) = !toMemory := by
  refine (if_neg h).trans ?_
  cases toMemory <;> rfl

/-- A data phase before the others. -/
theorem Follows.data {r' : IspRun} {ps : List TargetPhase} (ho : OffsetOk r.offset r.segments)
    (toMemory : Bool) (chunk : Nat) (bytes : List (BitVec 8))
    (hc : (phaseOf toMemory chunk bytes).size = chunk)
    (h : Follows (r.dataPhase toMemory chunk bytes) r' ps) :
    Follows r r' (phaseOf toMemory chunk bytes :: ps) := by
  obtain ⟨hmem, hmv, hrest, _, hmoved, hcomp, hst⟩ := dataPhase_spec ho toMemory chunk bytes
  have hlen : (r.dataPhase toMemory chunk bytes).rest.length = r.rest.length - chunk := by
    rw [hrest, List.length_drop]
  constructor
  · rw [h.mem, copyInOrder, hc, hmem, hrest]
  · rw [h.moves, copyInOrder, hc, hmv, hmem, hrest, List.append_assoc]
  · rw [h.moved, hmoved, hlen, List.map_cons, List.sum_cons, hc, BitVec.add_assoc,
      ← BitVec.ofNat_add]
    congr 2
    omega
  · intro b
    rw [h.completion (outStep b (phaseOf toMemory chunk bytes)), hlen, List.map_cons,
      List.sum_cons, hc, List.foldl_cons]
    by_cases hle : chunk + (ps.map size).sum ≤ r.rest.length
    · rw [if_pos (by omega), if_pos hle, hcomp, if_pos (by omega)]
    · rw [if_neg hle]
      by_cases hrem : (ps.map size).sum ≤ r.rest.length - chunk
      · -- No bytes follow, so this phase is the last that wants more.
        have hz : (ps.map size).sum = 0 := by omega
        have hlt : ¬ chunk ≤ r.rest.length := by omega
        rw [if_pos hrem, hcomp, if_neg hlt, foldl_outStep hz,
          outStep_phaseOf (by rw [hc]; omega)]
        cases toMemory <;> rfl
      · rw [if_neg hrem]
  · intro s hs
    rw [List.foldl_cons]
    refine h.status _ ?_
    rw [hst, hs]
    cases toMemory <;> rfl

/-- A whole command. -/
theorem phases_spec (h : OffsetOk r.offset r.segments) (ps : List TargetPhase) :
    Follows r (phases cdb lun r ps) (ofCommand ps) := by
  induction ps generalizing r with
  | nil => exact .nil r
  | cons p ps ih =>
    cases p with
    | msgOut => exact .quiet rfl rfl (ih h) rfl rfl rfl rfl rfl fun _ hs => hs
    | command => exact .quiet rfl rfl (ih h) rfl rfl rfl rfl rfl fun _ hs => hs
    | dataIn bytes =>
      have hd := (dataPhase_spec h true bytes.length bytes).2.2.2.1
      exact .data h true bytes.length bytes rfl (ih hd)
    | dataOut count =>
      have hd := (dataPhase_spec h false count []).2.2.2.1
      exact .data h false count [] rfl (ih hd)
    | status byte => exact .quiet rfl rfl (ih h) rfl rfl rfl rfl rfl fun _ _ => rfl
    | msgIn bytes =>
      rw [phases, ofCommand]
      by_cases hb : bytes.head? = some 0
      · rw [if_pos hb, if_pos (by exact decide_eq_true hb)]
        exact .quiet rfl rfl (.nil r) rfl rfl rfl rfl rfl fun _ hs => hs
      · rw [if_neg hb, if_neg (by rw [complete, decide_eq_false hb]; exact Bool.false_ne_true)]
        exact .quiet rfl rfl (ih h) rfl rfl rfl rfl rfl fun _ hs => hs

end IspRun

/-! ## Copying in order -/

open TargetPhase

/-- The moves of the phases are at the next addresses. -/
theorem copyInOrder_addresses (m : Nat → BitVec 8) (addresses : List Nat)
    (ps : List TargetPhase) : (copyInOrder m addresses ps).2.map (·.address) =
      addresses.take (ps.map size).sum := by
  induction ps generalizing m addresses with
  | nil => rfl
  | cons p ps ih =>
    rw [copyInOrder, List.map_append, ih, List.map_cons, List.sum_cons, List.take_add]
    congr 1
    cases p with
    | dataIn bytes =>
      simp only [movesAt, size, List.map_map, Function.comp_def]
      exact List.map_fst_zip (by rw [List.length_take]; omega)
    | dataOut count => simp [movesAt, size, Function.comp_def]
    | _ => simp [movesAt, size]

/-- Only the addresses that are asked for count. -/
theorem copyInOrder_congr {m : Nat → BitVec 8} {l l' : List Nat} {ps : List TargetPhase}
    (h : l.take (ps.map size).sum = l'.take (ps.map size).sum) :
    copyInOrder m l ps = copyInOrder m l' ps := by
  induction ps generalizing m l l' with
  | nil => rfl
  | cons p ps ih =>
    rw [List.map_cons, List.sum_cons] at h
    have h1 : l.take p.size = l'.take p.size := by
      have := congrArg (List.take p.size) h
      rwa [List.take_take, List.take_take, Nat.min_eq_left (Nat.le_add_right _ _)] at this
    have h2 : (l.drop p.size).take (ps.map size).sum = (l'.drop p.size).take (ps.map size).sum := by
      have := congrArg (List.drop p.size) h
      rwa [List.drop_take, List.drop_take, Nat.add_sub_cancel_left] at this
    rw [copyInOrder, copyInOrder, h1, ih h2]

/-! ## The adapter's bytes -/

/-- The bytes of the segments that the adapter collects, as it addresses them. -/
def adapterBytes (m : Nat → BitVec 8) (q : IspRing) (entryAddress : Nat) : List Nat :=
  IspRun.rest
    { mem := m, segments := gatherSegments m q entryAddress 64, offset := 0, moved := 0,
      completion := 0, scsiStatus := 0, stateFlags := 0, moves := [], given := [] }

/-- The adapter takes the low 32 bits of an address. -/
theorem bytesFrom_places (places : List SegPlace) :
    bytesFrom 0 (places.map fun p => ⟨p.address, p.count⟩) =
      ((places.map SegPlace.segment).flatMap DataSegment.bytes).map (· % 2 ^ 32) := by
  induction places with
  | nil => rfl
  | cons p places ih =>
    rw [List.map_cons, bytesFrom, ih, List.map_cons, List.flatMap_cons, List.map_append,
      DataSegment.bytes, List.map_map]
    congr 1
    refine List.map_congr_left fun i _ => ?_
    have hd : 2 ^ 32 ∣ (if p.wide then 2 ^ 64 else 2 ^ 32) := by split <;> decide
    show (p.address + 0 + i) % 2 ^ 32 =
      (p.address + 2 ^ 32 * p.high + i) % (if p.wide then 2 ^ 64 else 2 ^ 32) % 2 ^ 32
    rw [Nat.mod_mod_of_dvd _ hd]
    omega

theorem adapterBytes_eq : adapterBytes m q entryAddress =
    (((allSegments m q entryAddress).take 64).flatMap DataSegment.bytes).map (· % 2 ^ 32) := by
  rw [← segmentPlaces_eq]
  exact bytesFrom_places _

theorem sum_count (segs : List IspSegment) :
    (segs.map (·.count)).sum = (bytesFrom 0 segs).length := by
  induction segs with
  | nil => rfl
  | cons s segs ih => simp [bytesFrom, ih]

theorem allBytes_eq : allBytes m q entryAddress =
    ((allSegments m q entryAddress).take 64).flatMap DataSegment.bytes ++
      ((allSegments m q entryAddress).drop 64).flatMap DataSegment.bytes := by
  rw [allBytes, ← List.flatMap_append, List.take_append_drop]

/-! ## What is reported -/

theorem setWidth_eq_zero {s : BitVec 8} : s.setWidth 16 = 0 ↔ s = 0 := by
  rw [← BitVec.toNat_inj, ← BitVec.toNat_inj, BitVec.toNat_setWidth_of_le (by decide)]
  rfl

/-- The residual, and when success is reported rightly. -/
theorem reported {r : IspRun} {n k : Nat} {status : BitVec 8} {out : Bool}
    (hmoved : r.moved = BitVec.ofNat 32 (min n k))
    (hcomp : r.completion = if n ≤ k then ISP_STATUS_COMPLETE
      else if out then ISP_STATUS_COMPLETE else ISP_STATUS_DATA_OVERRUN)
    (hst : r.scsiStatus = status.setWidth 16) :
    (BitVec.ofNat 32 k - r.moved).toNat = (k - n) % 2 ^ 32 ∧
      (((if r.moved < BitVec.ofNat 32 k ∧ r.completion = ISP_STATUS_COMPLETE ∧
          r.scsiStatus &&& 0xff = 0 then ISP_STATUS_DATA_UNDERRUN else r.completion) =
            ISP_STATUS_COMPLETE → r.scsiStatus = 0 → n ≤ k) ↔
        (n ≤ k ∨ status ≠ 0 ∨ out = false)) := by
  refine ⟨?_, ?_⟩
  · rw [hmoved, BitVec.toNat_sub, BitVec.toNat_ofNat, BitVec.toNat_ofNat]
    omega
  · by_cases hle : n ≤ k
    · exact iff_of_true (fun _ _ => hle) (.inl hle)
    · -- Every byte was moved, so nothing is short.
      have hno : ¬ r.moved < BitVec.ofNat 32 k := by
        rw [hmoved, Nat.min_eq_right (by omega)]
        exact BitVec.lt_irrefl _
      rw [if_neg (fun h => hno h.1), hcomp, if_neg hle, hst, setWidth_eq_zero]
      cases out with
      | true => simp [hle]
      | false => simp [hle, ISP_STATUS_COMPLETE, ISP_STATUS_DATA_OVERRUN]

/-- What a command comes to, over the adapter's bytes. -/
theorem executeCommand_spec (target : IspTarget) :
    let r := executeCommand m q entryAddress target
    let bytes := adapterBytes m q entryAddress
    (r.mem, r.moves) = copyInOrder m bytes (ofCommand target.phases) ∧
      r.outcome.residual.toNat = (bytes.length - asked target.phases) % 2 ^ 32 ∧
      ((r.outcome.completion = ISP_STATUS_COMPLETE → r.outcome.scsiStatus = 0 →
          asked target.phases ≤ bytes.length) ↔
        (asked target.phases ≤ bytes.length ∨ lastStatus target.phases ≠ 0 ∨
          endsOut target.phases = false)) := by
  cases target with
  | noBus =>
    refine ⟨rfl, ?_, ?_⟩
    · simp only [executeCommand, sum_count]
      exact BitVec.toNat_ofNat ..
    · exact iff_of_true (fun _ _ => Nat.zero_le _) (.inl (Nat.zero_le _))
  | absent =>
    refine ⟨rfl, ?_, ?_⟩
    · simp only [executeCommand, sum_count]
      exact BitVec.toNat_ofNat ..
    · exact iff_of_true (fun _ _ => Nat.zero_le _) (.inl (Nat.zero_le _))
  | selected phases sense =>
    simp only [executeCommand, sum_count, IspTarget.phases]
    generalize IspRun.cdbOf _ _ _ = cdb
    generalize (fetch ispBus m entryAddress entrySize).getD 0x08 0 = lun
    have hf := @IspRun.phases_spec
      { mem := m, segments := gatherSegments m q entryAddress 64, offset := 0, moved := 0,
        completion := ISP_STATUS_COMPLETE, scsiStatus := 0,
        stateFlags := ISP_STATE_GOT_BUS ||| ISP_STATE_GOT_TARGET, moves := [], given := [] }
      cdb lun (offsetOk_zero _) phases
    generalize IspRun.phases cdb lun _ phases = r at hf ⊢
    obtain ⟨hmem, hmv, hmoved, hcomp, hst⟩ := hf
    change r.mem = (copyInOrder m (adapterBytes m q entryAddress) _).1 at hmem
    change r.moves = [] ++ (copyInOrder m (adapterBytes m q entryAddress) _).2 at hmv
    change r.moved = 0 + BitVec.ofNat 32 (min (asked phases)
      (adapterBytes m q entryAddress).length) at hmoved
    change ∀ b, r.completion = if asked phases ≤ (adapterBytes m q entryAddress).length then _
      else _ at hcomp
    have hst0 : r.scsiStatus = (lastStatus phases).setWidth 16 := hst 0 rfl
    exact ⟨Prod.ext hmem (hmv.trans (List.nil_append _)),
      reported (hmoved.trans (BitVec.zero_add _)) (hcomp false) hst0⟩

/-- A command moves the right bytes, or says that it did not, exactly when what its segments are
and what the target asks for is within what the adapter does. -/
theorem command_moves_right (m : Nat → BitVec 8) (q : IspRing) (entryAddress : Nat)
    (target : IspTarget) :
    MovesRight m q entryAddress target (executeCommand m q entryAddress target) ↔
      WithinAdapter m q entryAddress target := by
  obtain ⟨hcopy, hres, hsucc⟩ := @executeCommand_spec m q entryAddress target
  have hall := @allBytes_eq m q entryAddress
  have hadapter := @adapterBytes_eq m q entryAddress
  generalize hX : ((allSegments m q entryAddress).take 64).flatMap DataSegment.bytes = X at *
  generalize hY : ((allSegments m q entryAddress).drop 64).flatMap DataSegment.bytes = Y at *
  -- X is what the adapter collects of the segments, Y what it leaves
  have hlen : (adapterBytes m q entryAddress).length = X.length := by
    rw [hadapter, List.length_map]
  have hmoves : (executeCommand m q entryAddress target).moves.length =
      min (asked target.phases) X.length := by
    have h2 := congrArg (fun r => (r.2.map (·.address)).length) hcopy
    simp only [copyInOrder_addresses, List.length_map, List.length_take, hlen] at h2
    exact h2
  rw [hlen] at hres hsucc
  constructor
  · intro h
    have hr := h.residual
    rw [hres, hmoves, hall, List.length_append] at hr
    have hmod := Nat.mod_le (X.length - asked target.phases) (2 ^ 32)
    -- the residual counts all the bytes, so none was left out
    have hY0 : Y = [] := List.eq_nil_of_length_eq_zero (by omega)
    rw [hY0, List.append_nil] at hall
    have hlt := Nat.mod_lt (X.length - asked target.phases) (show 0 < 2 ^ 32 by decide)
    refine ⟨hY.trans hY0, ?_, ?_, ?_⟩
    · intro x hx
      have h2 := congrArg (fun r => r.2.map (·.address)) (hcopy.symm.trans h.moves)
      simp only [copyInOrder_addresses, hadapter, hall] at h2
      have hx' : x ∈ (X.map (· % 2 ^ 32)).take (asked target.phases) := by
        rw [hall] at hx
        exact h2 ▸ hx
      obtain ⟨y, _, rfl⟩ := List.mem_map.mp (List.mem_of_mem_take hx')
      exact Nat.mod_lt _ (by decide)
    · rw [hall]
      omega
    · rw [hall]
      refine hsucc.mp fun hc hs => ?_
      have := h.success hc hs
      rwa [hall] at this
  · intro h
    have hY0 : Y = [] := hY.symm.trans h.collected
    rw [hY0, List.append_nil] at hall
    obtain ⟨_, hnarrow, hleft, hsup⟩ := h
    rw [hall] at hnarrow hleft hsup
    refine ⟨?_, ?_, ?_⟩
    · rw [hcopy, hall]
      refine copyInOrder_congr ?_
      show (adapterBytes m q entryAddress).take (asked target.phases) =
        X.take (asked target.phases)
      rw [hadapter, ← List.map_take]
      exact List.map_congr_left (fun x hx => Nat.mod_eq_of_lt (hnarrow x hx)) |>.trans
        (List.map_id _)
    · rw [hres, hmoves, hall, Nat.mod_eq_of_lt hleft]
      omega
    · rw [hall]
      exact hsucc.mpr hsup

/-! ## A short WRITE -/

/-- A queue of 16 slots at 0 whose first entry is a WRITE(10) of one block with one segment, of 100
bytes at 0x1000. -/
def shortWrite : Nat → BitVec 8 := fun a =>
  ([1, 1, 0, 0, 0, 0, 0, 0, 0, 0, 10, 0, 0x80, 0, 0, 0, 0, 0, 1, 0,
    0x2a, 0, 0, 0, 0, 0, 0, 0, 1, 0, 0, 0, 0, 0x10, 0, 0, 100, 0, 0, 0] : List (BitVec 8)).getD a 0

/-- What a disk with blocks of 512 bytes does with it. -/
def oneBlockOut : IspTarget :=
  .selected [.msgOut, .command, .dataOut 512, .status 0, .msgIn [0]] []

theorem shortWrite_segments : gatherSegments shortWrite ⟨0, 16⟩ 0 64 = [⟨0x1000, 100⟩] := by
  rw [gatherSegments, segmentPlaces, continuations_of_le (by decide +kernel)]
  decide +kernel

/-- The target takes 512 bytes, the segments hold 100, and the command is a success. -/
theorem short_write_succeeds :
    (executeCommand shortWrite ⟨0, 16⟩ 0 oneBlockOut).outcome.completion = ISP_STATUS_COMPLETE ∧
      (executeCommand shortWrite ⟨0, 16⟩ 0 oneBlockOut).outcome.scsiStatus = 0 ∧
      (executeCommand shortWrite ⟨0, 16⟩ 0 oneBlockOut).outcome.residual = 0 ∧
      (executeCommand shortWrite ⟨0, 16⟩ 0 oneBlockOut).moves.length = 100 ∧
      asked oneBlockOut.phases = 512 ∧
      ¬ MovesRight shortWrite ⟨0, 16⟩ 0 oneBlockOut
        (executeCommand shortWrite ⟨0, 16⟩ 0 oneBlockOut) := by
  have h : (executeCommand shortWrite ⟨0, 16⟩ 0 oneBlockOut).outcome.completion =
        ISP_STATUS_COMPLETE ∧
      (executeCommand shortWrite ⟨0, 16⟩ 0 oneBlockOut).outcome.scsiStatus = 0 ∧
      (executeCommand shortWrite ⟨0, 16⟩ 0 oneBlockOut).outcome.residual = 0 ∧
      (executeCommand shortWrite ⟨0, 16⟩ 0 oneBlockOut).moves.length = 100 ∧
      asked oneBlockOut.phases = 512 := by
    unfold executeCommand
    rw [shortWrite_segments]
    decide +kernel
  obtain ⟨hc, hs, hr, hm, ha⟩ := h
  refine ⟨hc, hs, hr, hm, ha, fun hright => ?_⟩
  have hres := hright.residual
  rw [hr, hm] at hres
  have hle := hright.success hc hs
  rw [ha, ← hres] at hle
  exact absurd hle (by decide)

end Alphabox.Pci
