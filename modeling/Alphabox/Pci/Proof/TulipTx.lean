import Alphabox.Lib.Bits
import Alphabox.Pci.TulipTx

/-!
# The Tulip's transmitter sends what it was given, once

The specification is over the descriptors posted: `frames` are what they come to on the wire,
`closes` the addresses and statuses written back, each in its own terms (`onWire`,
`TxFrame.status`) and not in those of `pad` and `closingStatus`. The chip follows the ring by the same rule as the
driver (`follow`), so that what it owns is a run of posted descriptors (`Outstanding`).

A poll demand that falls between the fetch of an empty descriptor and the second locked section is
forgotten by that section: `TxHistory.Safe` leaves it out.
-/

namespace Alphabox.Pci

open TulipTx (pad closingStatus gather copyIn)

/-! ## Frames -/

/-- A frame as it goes out: with zeros up to 60 bytes, unless its first control word has bit 23, DPD,
set. -/
def onWire (ctl : BitVec 32) (l : List (BitVec 8)) : List (BitVec 8) :=
  if ctl.getLsbD 23 then l else l ++ List.replicate (60 - l.length) 0

/-- The transmitter pads a frame as it goes out. -/
theorem pad_eq_onWire (ctl : BitVec 32) (l : List (BitVec 8)) : pad ctl l = onWire ctl l := by
  have hdpd : ctl &&& TDCTL_Tx_DPD = 0 ↔ ctl.getLsbD 23 = false := by
    rw [← not_iff_not, Bool.not_eq_false]
    exact Lib.and_twoPow_ne_zero (show 23 < 32 by decide)
  unfold pad onWire
  simp only [hdpd]
  cases hbit : ctl.getLsbD 23 with
  | true => simp
  | false =>
    by_cases hlen : l.length < ETH_MIN_PACKET_RAW
    · rw [if_pos ⟨hlen, rfl⟩]
      rfl
    · -- nothing is added to a frame that is long enough
      have hzero : 60 - l.length = 0 := Nat.sub_eq_zero_of_le (Nat.not_lt.mp hlen)
      rw [if_neg fun h => hlen h.1, hzero]
      simp

theorem length_onWire_le (ctl : BitVec 32) {l : List (BitVec 8)} (h : l.length ≤ 1514) :
    (onWire ctl l).length ≤ 1514 := by
  unfold onWire
  split
  · exact h
  · rw [List.length_append, List.length_replicate]
    omega

namespace TxDescr

/-- The bytes of a descriptor's buffers. -/
def bytes (d : TxDescr) : List (BitVec 8) :=
  d.read d.tdes2 d.buf1Size ++ if d.has TDCTL_CH then [] else d.read d.tdes3 d.buf2Size

end TxDescr

/-- A frame in hand: its bytes so far and its first segment's control word. -/
structure TxFrame where
  bytes : List (BitVec 8)
  ctl : BitVec 32

namespace TxFrame

variable (f : TxFrame) (d : TxDescr)

/-- With a data descriptor's bytes. -/
def add : TxFrame where
  bytes := (if d.has TDCTL_Tx_FS then [] else f.bytes) ++ d.bytes
  ctl := if d.has TDCTL_Tx_FS then d.tdes1 else f.ctl

/-- The frame in hand after a descriptor. -/
def after : TxFrame :=
  if d.has TDCTL_Tx_SET then f
  else ⟨if d.has TDCTL_Tx_LS then [] else (f.add d).bytes, (f.add d).ctl⟩

/-- The descriptor ends a frame, one of more than 1514 bytes. -/
def TooLong : Prop :=
  d.has TDCTL_Tx_SET = false ∧ d.has TDCTL_Tx_LS = true ∧ 1514 < (f.add d).bytes.length

instance : Decidable (f.TooLong d) := inferInstanceAs (Decidable (_ ∧ _ ∧ _))

/-- The frame a descriptor ends, unless it is too long. -/
def ended : Option (List (BitVec 8)) :=
  if d.has TDCTL_Tx_SET = false ∧ d.has TDCTL_Tx_LS = true ∧ ¬f.TooLong d then
    some (onWire (f.add d).ctl (f.add d).bytes)
  else none

/-- The status a descriptor is closed with. A data descriptor's has OWN (bit 31) and every error bit
(15, 14, 11 to 8 and 1) clear, but for ES (15) and Tx_TO (14) at the end of a frame that is too long;
its other bits are the driver's. -/
def status : BitVec 32 :=
  if d.has TDCTL_Tx_SET then 0x7fffffff
  else (d.tdes0 &&& 0x7fff30fd) ||| if f.TooLong d then 0x0000c000 else 0

end TxFrame

/-- The frames of a run of descriptors. -/
def frames : TxFrame → List TxDescr → List (List (BitVec 8))
  | _, [] => []
  | f, d :: l => (f.ended d).toList ++ frames (f.after d) l

theorem frames_append (f : TxFrame) (l m : List TxDescr) :
    frames f (l ++ m) = frames f l ++ frames (l.foldl TxFrame.after f) m := by
  induction l generalizing f with
  | nil => rfl
  | cons d l ih => simp [frames, ih]

/-- A frame's descriptors: a first segment to the next last segment. -/
structure IsFrame (d : TxDescr) (l : List TxDescr) : Prop where
  first : d.has TDCTL_Tx_FS = true
  data : ∀ e ∈ d :: l, e.has TDCTL_Tx_SET = false
  rest : ∀ e ∈ l, e.has TDCTL_Tx_FS = false
  last : ∀ e ∈ (d :: l).dropLast, e.has TDCTL_Tx_LS = false
  ends : ((d :: l).getLast (List.cons_ne_nil d l)).has TDCTL_Tx_LS = true

/-- What a frame's descriptors send: their bytes, padded, unless they are too many. -/
def sentOf (ctl : BitVec 32) (l : List TxDescr) : List (List (BitVec 8)) :=
  if (l.flatMap TxDescr.bytes).length ≤ 1514 then [onWire ctl (l.flatMap TxDescr.bytes)] else []

theorem ended_of_last {f : TxFrame} {d : TxDescr} (hset : d.has TDCTL_Tx_SET = false)
    (hls : d.has TDCTL_Tx_LS = true) : f.ended d =
      if (f.add d).bytes.length ≤ 1514 then some (onWire (f.add d).ctl (f.add d).bytes) else none := by
  simp only [TxFrame.ended, TxFrame.TooLong, hset, hls, true_and, Nat.not_lt]

theorem frames_rest (f : TxFrame) {l : List TxDescr} (hl : l ≠ [])
    (hdata : ∀ e ∈ l, e.has TDCTL_Tx_SET = false) (hrest : ∀ e ∈ l, e.has TDCTL_Tx_FS = false)
    (hlast : ∀ e ∈ l.dropLast, e.has TDCTL_Tx_LS = false)
    (hends : (l.getLast hl).has TDCTL_Tx_LS = true) :
    frames f l = if (f.bytes ++ l.flatMap TxDescr.bytes).length ≤ 1514 then
      [onWire f.ctl (f.bytes ++ l.flatMap TxDescr.bytes)] else [] := by
  induction l generalizing f with
  | nil => exact absurd rfl hl
  | cons d l ih =>
    have hset := hdata d List.mem_cons_self
    have hfs := hrest d List.mem_cons_self
    have hadd : f.add d = ⟨f.bytes ++ d.bytes, f.ctl⟩ := by simp [TxFrame.add, hfs]
    cases l with
    | nil =>
      have hls : d.has TDCTL_Tx_LS = true := hends
      simp only [frames, ended_of_last hset hls, hadd, List.append_nil, List.flatMap_cons,
        List.flatMap_nil]
      split <;> rfl
    | cons e l =>
      have hls : d.has TDCTL_Tx_LS = false := hlast d (by simp)
      have hafter : f.after d = ⟨f.bytes ++ d.bytes, f.ctl⟩ := by
        simp [TxFrame.after, hset, hls, hadd]
      have hended : f.ended d = none := by simp [TxFrame.ended, hls]
      rw [frames, hended, hafter, ih ⟨f.bytes ++ d.bytes, f.ctl⟩ (by simp)
        (fun a ha => hdata a (List.mem_cons_of_mem d ha))
        (fun a ha => hrest a (List.mem_cons_of_mem d ha))
        (fun a ha => hlast a (by rw [List.dropLast_cons_of_ne_nil (by simp)];
                                 exact List.mem_cons_of_mem d ha)) hends]
      simp only [Option.toList_none, List.nil_append, List.flatMap_cons, List.append_assoc]

theorem frames_isFrame (f : TxFrame) {d : TxDescr} {l : List TxDescr} (h : IsFrame d l) :
    frames f (d :: l) = sentOf d.tdes1 (d :: l) := by
  have hset := h.data d List.mem_cons_self
  have hadd : f.add d = ⟨d.bytes, d.tdes1⟩ := by simp [TxFrame.add, h.first]
  cases l with
  | nil =>
    have hls : d.has TDCTL_Tx_LS = true := h.ends
    simp only [frames, ended_of_last hset hls, hadd, List.append_nil, sentOf, List.flatMap_cons,
      List.flatMap_nil]
    split <;> rfl
  | cons e l =>
    have hls : d.has TDCTL_Tx_LS = false := h.last d (by simp)
    have hafter : f.after d = ⟨d.bytes, d.tdes1⟩ := by simp [TxFrame.after, hset, hls, hadd]
    have hended : f.ended d = none := by simp [TxFrame.ended, hls]
    rw [frames, hended, hafter, frames_rest _ (by simp)
      (fun a ha => h.data a (List.mem_cons_of_mem d ha)) h.rest
      (fun a ha => h.last a (by rw [List.dropLast_cons_of_ne_nil (by simp)];
                                exact List.mem_cons_of_mem d ha)) h.ends]
    simp only [Option.toList_none, List.nil_append, sentOf, List.flatMap_cons]

/-- No frame is longer than the longest packet. -/
theorem length_frames_le (f : TxFrame) (l : List TxDescr) :
    ∀ frame ∈ frames f l, frame.length ≤ 1514 := by
  induction l generalizing f with
  | nil => simp [frames]
  | cons d l ih =>
    intro frame hframe
    rw [frames, List.mem_append] at hframe
    rcases hframe with h | h
    · rw [Option.mem_toList, TxFrame.ended] at h
      split at h
      · rename_i hc
        have hlen : (f.add d).bytes.length ≤ 1514 :=
          Nat.not_lt.mp fun hlong => hc.2.2 ⟨hc.1, hc.2.1, hlong⟩
        rw [← Option.some.inj h]
        exact length_onWire_le _ hlen
      · cases h
    · exact ih _ frame h

/-! ## The scratch buffer -/

theorem take_read (d : TxDescr) (a : BitVec 32) (n m : Nat) :
    (d.read a n).take m = d.read a (min n m) := by
  rw [TxDescr.read, ← List.map_take, List.take_range, TxDescr.read, min_comm]

@[simp] theorem length_read (d : TxDescr) (a : BitVec 32) (n : Nat) : (d.read a n).length = n := by
  simp [TxDescr.read]

/-- The scratch buffer keeps what fits of the bytes. -/
theorem copyIn_take (d : TxDescr) (l : List (BitVec 8)) (a : BitVec 32) (n : Nat) :
    copyIn d (l.take TX_CAP) a n = (l ++ d.read a n).take TX_CAP := by
  rw [copyIn, List.take_append, take_read, List.length_take]
  congr 2
  omega

theorem gather_take (f : TxFrame) (d : TxDescr) :
    gather d (f.bytes.take TX_CAP) = (f.add d).bytes.take TX_CAP := by
  have hstart : (if d.has TDCTL_Tx_FS then [] else f.bytes.take TX_CAP) =
      (if d.has TDCTL_Tx_FS then [] else f.bytes).take TX_CAP := by
    split <;> simp
  unfold gather
  rw [hstart, copyIn_take]
  cases hch : d.has TDCTL_CH with
  | true => simp [TxFrame.add, TxDescr.bytes, hch]
  | false =>
    simp only [Bool.false_eq_true, if_false]
    rw [copyIn_take]
    simp [TxFrame.add, TxDescr.bytes, hch]

/-! ## The ring -/

section Ring

variable (txlist skip : BitVec 32)

/-- Where the ring has come to after a run of descriptors. -/
def follow (a : BitVec 32) : List TxDescr → BitVec 32
  | [] => a
  | d :: l => follow (d.next txlist skip a) l

/-- The addresses of a run of descriptors. -/
def places (a : BitVec 32) : List TxDescr → List (BitVec 32)
  | [] => []
  | d :: l => a :: places (d.next txlist skip a) l

/-- What the chip writes back for a run of descriptors. -/
def closes (f : TxFrame) (a : BitVec 32) : List TxDescr → List (BitVec 32 × BitVec 32)
  | [] => []
  | d :: l => (a, f.status d) :: closes (f.after d) (d.next txlist skip a) l

/-- The descriptors stand in memory from `a` on, and nothing else is the chip's. -/
structure Outstanding (mem : BitVec 32 → TxDescr) (a : BitVec 32) (l : List TxDescr) : Prop where
  stand : (places txlist skip a l).map mem = l
  nodup : (places txlist skip a l).Nodup
  own : ∀ d ∈ l, d.own = true
  only : ∀ b, (mem b).own = true → b ∈ places txlist skip a l

variable {txlist skip} {mem : BitVec 32 → TxDescr} {a : BitVec 32} {l m : List TxDescr}

theorem follow_append : follow txlist skip a (l ++ m) =
    follow txlist skip (follow txlist skip a l) m := by
  induction l generalizing a with
  | nil => rfl
  | cons d l ih => exact ih

theorem places_append : places txlist skip a (l ++ m) =
    places txlist skip a l ++ places txlist skip (follow txlist skip a l) m := by
  induction l generalizing a with
  | nil => rfl
  | cons d l ih => simp [places, follow, ih]

theorem closes_append {f : TxFrame} : closes txlist skip f a (l ++ m) =
    closes txlist skip f a l ++
      closes txlist skip (l.foldl TxFrame.after f) (follow txlist skip a l) m := by
  induction l generalizing a f with
  | nil => rfl
  | cons d l ih => simp [closes, follow, ih]

/-- The entry of each descriptor. -/
theorem closes_getElem? {f : TxFrame} (k : Nat) : (closes txlist skip f a l)[k]? =
    (l[k]?).map fun d => (follow txlist skip a (l.take k),
      ((l.take k).foldl TxFrame.after f).status d) := by
  induction l generalizing a f k with
  | nil => rfl
  | cons d l ih =>
    cases k with
    | zero => rfl
    | succ k => exact ih k

theorem map_update_of_notMem {as : List (BitVec 32)} (h : a ∉ as) {d : TxDescr} :
    as.map (Function.update mem a d) = as.map mem :=
  List.map_congr_left fun b hb => Function.update_of_ne (fun he : b = a => h (he ▸ hb)) d mem

/-- The driver posts where the chip owns nothing. -/
theorem Outstanding.post (h : Outstanding txlist skip mem a l) {d : TxDescr} (hd : d.own = true)
    (hfree : (mem (follow txlist skip a l)).own = false) :
    Outstanding txlist skip (Function.update mem (follow txlist skip a l) d) a (l ++ [d]) := by
  have hout : follow txlist skip a l ∉ places txlist skip a l := by
    intro hin
    have hmem : mem (follow txlist skip a l) ∈ l := by
      have := List.mem_map_of_mem (f := mem) hin
      rwa [h.stand] at this
    rw [h.own _ hmem] at hfree
    exact Bool.noConfusion hfree
  have hplaces : places txlist skip a (l ++ [d]) =
      places txlist skip a l ++ [follow txlist skip a l] := by
    rw [places_append]
    rfl
  refine ⟨?_, ?_, ?_, ?_⟩
  · rw [hplaces, List.map_append]
    congr 1
    · rw [map_update_of_notMem hout]
      exact h.stand
    · simp
  · rw [hplaces, List.nodup_append]
    refine ⟨h.nodup, by simp, fun b hb c hc he => ?_⟩
    rw [List.mem_singleton.mp hc] at he
    exact hout (he ▸ hb)
  · intro e he
    rcases List.mem_append.mp he with he | he
    · exact h.own e he
    · rw [List.mem_singleton.mp he]
      exact hd
  · intro b hb
    rw [hplaces, List.mem_append, List.mem_singleton]
    by_cases hbp : b = follow txlist skip a l
    · exact Or.inr hbp
    · rw [Function.update_of_ne hbp] at hb
      exact Or.inl (h.only b hb)

/-- The chip gives the first one back. -/
theorem Outstanding.close {d e : TxDescr} (h : Outstanding txlist skip mem a (d :: l))
    (he : e.own = false) :
    Outstanding txlist skip (Function.update mem a e) (d.next txlist skip a) l := by
  have hnot : a ∉ places txlist skip (d.next txlist skip a) l := (List.nodup_cons.mp h.nodup).1
  refine ⟨?_, (List.nodup_cons.mp h.nodup).2, fun e' he' => h.own e' (List.mem_cons_of_mem d he'),
    ?_⟩
  · rw [map_update_of_notMem hnot]
    exact (List.cons.inj h.stand).2
  · intro b hb
    by_cases hba : b = a
    · subst hba
      rw [Function.update_self, he] at hb
      exact Bool.noConfusion hb
    · rw [Function.update_of_ne hba] at hb
      rcases List.mem_cons.mp (h.only b hb) with hb | hb
      · exact absurd hb hba
      · exact hb

/-- The next descriptor is the chip's exactly when there is one. -/
theorem Outstanding.head (h : Outstanding txlist skip mem a l) :
    (mem a).own = true ↔ l.head? = some (mem a) := by
  cases l with
  | nil =>
    refine ⟨fun ho => ?_, fun hn => by cases hn⟩
    have := h.only a ho
    simp [places] at this
  | cons d l =>
    have hd : mem a = d := (List.cons.inj h.stand).1
    exact ⟨fun _ => by rw [hd]; rfl, fun _ => by rw [hd]; exact h.own d List.mem_cons_self⟩

end Ring

/-! ## The sections -/

namespace TulipTx

variable {s : TulipTx}

/-- What the locked sections before the buffers leave alone. -/
structure Same (s s' : TulipTx) : Prop where
  opmode : s'.opmode = s.opmode
  txlist : s'.txlist = s.txlist
  descrSkip : s'.descrSkip = s.descrSkip
  curAddr : s'.curAddr = s.curAddr
  curBuf : s'.curBuf = s.curBuf
  txFirstCtl : s'.txFirstCtl = s.txFirstCtl
  sent : s'.sent = s.sent

theorem begin_spec (hst : s.opmode &&& OPMODE_ST ≠ 0) : Same s s.begin ∧
    s.begin.suspend = s.suspend ∧
    s.begin.pc = if s.suspend then .rest else .begun s.curAddr s.curBuf := by
  unfold begin
  by_cases hs : s.suspend = true
  · rw [if_pos (Or.inr hs), if_pos hs]
    exact ⟨⟨rfl, rfl, rfl, rfl, rfl, rfl, rfl⟩, rfl, rfl⟩
  · rw [if_neg fun h => h.elim hst hs, if_neg hs]
    exact ⟨⟨rfl, rfl, rfl, rfl, rfl, rfl, rfl⟩, rfl, rfl⟩

theorem giveUp_spec : Same s s.giveUp ∧ s.giveUp.pc = .rest := by
  unfold giveUp
  refine ⟨⟨?_, ?_, ?_, ?_, ?_, ?_, ?_⟩, rfl⟩
  all_goals
    dsimp only
    split <;> split <;> rfl

theorem accept_spec (addr : BitVec 32) (buf : List (BitVec 8)) (d : TxDescr) :
    Same s (s.accept addr buf d) ∧ (s.accept addr buf d).suspend = s.suspend ∧
      (s.accept addr buf d).pc = .owned addr buf d s.opmode := by
  unfold accept
  refine ⟨⟨?_, ?_, ?_, ?_, ?_, ?_, ?_⟩, ?_, rfl⟩
  all_goals
    dsimp only
    split <;> rfl

theorem commit_spec (next : BitVec 32) (buf : List (BitVec 8)) (ti : Bool) :
    Same { s with curAddr := next, curBuf := buf } (s.commit next buf ti) ∧
      (s.commit next buf ti).suspend = s.suspend ∧ (s.commit next buf ti).pc = .top := by
  unfold commit
  refine ⟨⟨?_, ?_, ?_, ?_, ?_, ?_, ?_⟩, ?_, rfl⟩
  all_goals
    dsimp only
    split <;> rfl

/-- A setup frame changes the filtering bits of CSR6 and no other. -/
theorem setup_opmode (x : BitVec 32) (d : TxDescr) {k : BitVec 32}
    (hk : k &&& OPMODE_FILTER_MODE = 0) :
    ((x &&& ~~~OPMODE_FILTER_MODE) ||| setupMode d) &&& k = x &&& k := by
  have hmode : setupMode d &&& OPMODE_FILTER_MODE = setupMode d := by
    unfold setupMode
    split <;> split <;> decide
  rw [Lib.and_eq_and]
  intro i hi
  have h1 : OPMODE_FILTER_MODE.getLsbD i = false := by
    have := congrArg (·.getLsbD i) hk
    simpa [hi] using this
  have h2 : (setupMode d).getLsbD i = false := by
    rw [← hmode, BitVec.getLsbD_and, h1, Bool.and_false]
  have hlt : i < 32 := by
    by_contra hge
    rw [BitVec.getLsbD_of_ge k i (by omega)] at hi
    exact Bool.noConfusion hi
  simp only [BitVec.getLsbD_or, BitVec.getLsbD_and, BitVec.getLsbD_not, h1, h2, hlt]
  simp

/-- The transmitter closes a data descriptor so: the error bits and OWN are cleared, and those of a
frame that is too long set. -/
theorem closingStatus_eq (t : BitVec 32) (tooLong : Bool) :
    closingStatus t tooLong = (t &&& 0x7fff30fd) ||| if tooLong then 0x0000c000 else 0 := by
  have hmask : ~~~(TX_ERRORS ||| TDSTAT_ES) &&& ~~~TDSTAT_OWN = 0x7fff30fd := by decide
  cases tooLong with
  | true =>
    have hbits : (t &&& ~~~(TX_ERRORS ||| TDSTAT_ES) ||| TDSTAT_Tx_TO ||| TDSTAT_ES) &&&
        ~~~TDSTAT_OWN = (t &&& 0x7fff30fd) ||| 0x0000c000 := by
      rw [BitVec.and_or_distrib_right, BitVec.and_or_distrib_right, BitVec.and_assoc, hmask,
        BitVec.or_assoc]
      congr 1
    -- the second test finds Tx_TO and sets ES, which is set
    have hfound : ((t &&& 0x7fff30fd) ||| 0x0000c000) &&& TX_ERRORS ≠ 0 :=
      Lib.and_ne_zero_iff.mpr ⟨14, by simp, by decide⟩
    simp only [closingStatus, if_true]
    rw [hbits, if_pos hfound, BitVec.or_assoc]
    congr 1
  | false =>
    have hnone : (t &&& 0x7fff30fd) &&& TX_ERRORS = 0 := by
      rw [BitVec.and_assoc, show (0x7fff30fd : BitVec 32) &&& TX_ERRORS = 0 from by decide]
      exact BitVec.and_zero
    simp only [closingStatus, Bool.false_eq_true, if_false]
    rw [BitVec.and_assoc t, hmask, if_neg (not_not.mpr hnone)]
    exact BitVec.or_zero.symm

/-- The bits of the status of a data descriptor. -/
theorem status_bit (f : TxFrame) {d : TxDescr} (hd : d.has TDCTL_Tx_SET = false) (i : Nat) :
    (f.status d).getLsbD i = (d.tdes0.getLsbD i && (0x7fff30fd : BitVec 32).getLsbD i ||
      (decide (f.TooLong d) && (0x0000c000 : BitVec 32).getLsbD i)) := by
  rw [TxFrame.status, hd, if_neg Bool.false_ne_true, BitVec.getLsbD_or, BitVec.getLsbD_and]
  congr 1
  by_cases hlong : f.TooLong d
  · rw [if_pos hlong, decide_eq_true hlong, Bool.true_and]
  · rw [if_neg hlong, decide_eq_false hlong, Bool.false_and]
    exact BitVec.getLsbD_zero

/-- Every status written back leaves the descriptor to the driver. -/
theorem status_own (f : TxFrame) (d : TxDescr) : f.status d &&& TDSTAT_OWN = 0 := by
  cases hd : d.has TDCTL_Tx_SET with
  | true =>
    rw [TxFrame.status, hd, if_pos rfl]
    decide
  | false =>
    rw [← not_not (a := f.status d &&& TDSTAT_OWN = 0)]
    intro hne
    have hbit : (f.status d).getLsbD 31 = true := (Lib.and_twoPow_ne_zero (by decide)).mp hne
    rw [status_bit f hd] at hbit
    simp at hbit

/-- A data descriptor is closed with an error, Tx_TO, exactly when it ends a frame too long. -/
theorem status_error (f : TxFrame) {d : TxDescr} (hd : d.has TDCTL_Tx_SET = false) :
    ((f.status d).getLsbD 15 = true ↔ f.TooLong d) ∧
      ((f.status d).getLsbD 14 = true ↔ f.TooLong d) := by
  have hbit (i : Nat) (hkept : (0x7fff30fd : BitVec 32).getLsbD i = false)
      (hset : (0x0000c000 : BitVec 32).getLsbD i = true) :
      (f.status d).getLsbD i = true ↔ f.TooLong d := by
    rw [status_bit f hd, hkept, hset, Bool.and_false, Bool.false_or, Bool.and_true]
    exact decide_eq_true_iff
  exact ⟨hbit 15 (by decide) (by decide), hbit 14 (by decide) (by decide)⟩

/-- What executing a descriptor comes to, the frame in hand given by the scratch buffer. -/
structure Executes (s s' : TulipTx) (f : TxFrame) (addr : BitVec 32) (d : TxDescr) : Prop where
  pc : ∃ ti, s'.pc = .ready addr (d.next s.txlist s.descrSkip addr)
    ((f.after d).bytes.take TX_CAP) (f.status d) ti
  ctl : s'.txFirstCtl = (f.after d).ctl
  sent : s'.sent = s.sent ++ if s.opmode &&& OPMODE_OM = 0 then (f.ended d).toList else []
  mode : ∀ k, k &&& OPMODE_FILTER_MODE = 0 → s'.opmode &&& k = s.opmode &&& k
  list : s'.txlist = s.txlist ∧ s'.descrSkip = s.descrSkip
  suspend : s'.suspend = s.suspend

theorem deliver_spec (opmode : BitVec 32) (buf : List (BitVec 8)) :
    (s.deliver opmode buf).sent = s.sent ++
        (if opmode &&& OPMODE_OM = 0 ∧ buf.length ≤ 1514 then
          [onWire s.txFirstCtl buf] else []) ∧
      (s.deliver opmode buf).txFirstCtl = s.txFirstCtl ∧
      (s.deliver opmode buf).opmode = s.opmode ∧ (s.deliver opmode buf).txlist = s.txlist ∧
      (s.deliver opmode buf).descrSkip = s.descrSkip ∧
      (s.deliver opmode buf).suspend = s.suspend := by
  unfold deliver
  by_cases hlen : buf.length > ETH_MAX_PACKET_RAW
  · rw [if_pos hlen, if_neg fun h => Nat.not_le.mpr hlen h.2]
    simp
  · rw [if_neg hlen]
    by_cases hom : opmode &&& OPMODE_OM = 0
    · rw [if_pos hom, if_pos ⟨hom, Nat.not_lt.mp hlen⟩]
      simp [pad_eq_onWire]
    · have hnot : ¬(opmode &&& OPMODE_OM = 0 ∧ buf.length ≤ 1514) :=
        fun h => hom h.1
      rw [if_neg hom, if_neg hnot]
      split <;> simp

theorem exec_spec {f : TxFrame} (addr : BitVec 32) (d : TxDescr) {opmode : BitVec 32}
    (hop : opmode &&& OPMODE_OM = s.opmode &&& OPMODE_OM) (hctl : s.txFirstCtl = f.ctl) :
    Executes s (s.exec addr (f.bytes.take TX_CAP) d opmode) f addr d := by
  unfold exec
  cases hset : d.has TDCTL_Tx_SET with
  | true =>
    have hafter : f.after d = f := by simp [TxFrame.after, hset]
    have hstatus : f.status d = 0x7fffffff := by simp [TxFrame.status, hset]
    have hended : f.ended d = none := by simp [TxFrame.ended, hset]
    refine ⟨⟨d.has TDCTL_Tx_IC, ?_⟩, ?_, ?_, fun k hk => ?_, ⟨rfl, rfl⟩, rfl⟩
    · rw [hafter, hstatus]
      rfl
    · rw [hafter]
      exact hctl
    · rw [hended]
      simp [loadSetup]
    · exact setup_opmode s.opmode d hk
  | false =>
    have hgather := gather_take f d
    have hctl' : (if d.has TDCTL_Tx_FS then d.tdes1 else s.txFirstCtl) = (f.add d).ctl := by
      rw [hctl]
      rfl
    simp only [Bool.false_eq_true, if_false, execData, hgather, hctl']
    have hstatus (b : Bool) (hb : b = true ↔ f.TooLong d) :
        f.status d = closingStatus d.tdes0 b := by
      simp only [closingStatus_eq, TxFrame.status, hset, hb, Bool.false_eq_true, if_false]
    cases hls : d.has TDCTL_Tx_LS with
    | false =>
      have hafter : f.after d = f.add d := by simp [TxFrame.after, hset, hls]
      have hstatus := hstatus false (by simp [TxFrame.TooLong, hls])
      have hended : f.ended d = none := by simp [TxFrame.ended, hls]
      refine ⟨⟨false, ?_⟩, ?_, ?_, fun k _ => rfl, ⟨rfl, rfl⟩, rfl⟩
      · rw [hafter, hstatus]
        rfl
      · rw [hafter]
        rfl
      · rw [hended]
        simp
    | true =>
      -- the scratch buffer is long enough to tell
      have hlen : ((f.add d).bytes.take TX_CAP).length > ETH_MAX_PACKET_RAW ↔ f.TooLong d := by
        rw [List.length_take, TxFrame.TooLong]
        have hcap : 1514 < TX_CAP := by decide
        simp only [hset, hls, true_and, ETH_MAX_PACKET_RAW]
        omega
      have hafter : f.after d = ⟨[], (f.add d).ctl⟩ := by simp [TxFrame.after, hset, hls]
      have hstatus := hstatus
        (decide (((f.add d).bytes.take TX_CAP).length > ETH_MAX_PACKET_RAW))
        (decide_eq_true_iff.trans hlen)
      obtain ⟨hsent, hfc, hopm, htx, hskip, hsusp⟩ :=
        deliver_spec (s := { s with txFirstCtl := (f.add d).ctl }) opmode
          ((f.add d).bytes.take TX_CAP)
      simp only [if_true]
      generalize deliver { s with txFirstCtl := (f.add d).ctl } opmode
        ((f.add d).bytes.take TX_CAP) = s1 at hsent hfc hopm htx hskip hsusp ⊢
      refine ⟨⟨d.has TDCTL_Tx_IC, ?_⟩, ?_, ?_, fun k _ => ?_, ⟨htx, hskip⟩, hsusp⟩
      · rw [hafter, hstatus]
        rfl
      · rw [hafter]
        exact hfc
      · refine hsent.trans ?_
        congr 1
        by_cases hshort : (f.add d).bytes.length ≤ 1514
        · have htake : (f.add d).bytes.take TX_CAP = (f.add d).bytes := by
            refine List.take_of_length_le (hshort.trans ?_)
            decide
          have hended : f.ended d = some (onWire (f.add d).ctl (f.add d).bytes) := by
            rw [ended_of_last hset hls, if_pos hshort]
          simp only [htake, hshort, and_true, hop, hended, Option.toList_some]
        · have hended : f.ended d = none := by rw [ended_of_last hset hls, if_neg hshort]
          have hnot : ¬((f.add d).bytes.take TX_CAP).length ≤ 1514 :=
            Nat.not_le.mpr (hlen.mpr ⟨hset, hls, Nat.not_le.mp hshort⟩)
          rw [if_neg fun h => hnot h.2, hended]
          simp
      · exact congrArg (· &&& k) hopm

end TulipTx

/-! ## The invariant -/

namespace TxHistory

/-- The frame in hand at the start. -/
def start (h : TxHistory) : TxFrame := ⟨[], h.firstCtl⟩

variable (h : TxHistory) (k : Nat)

/-- The frame in hand after `k` descriptors. -/
def frameAt : TxFrame := (h.posted.take k).foldl TxFrame.after h.start

/-- Where the ring has come to after `k` descriptors. -/
def placeAt : BitVec 32 := follow h.nic.txlist h.nic.descrSkip h.first (h.posted.take k)

/-- What `k` descriptors send: to the back end, unless the chip is in loopback. -/
def sentAt : List (List (BitVec 8)) :=
  if h.nic.opmode &&& OPMODE_OM = 0 then frames h.start (h.posted.take k) else []

/-- The thread has executed `k` descriptors, and has come to `addr` with `buf` in hand. -/
structure Holds (addr : BitVec 32) (buf : List (BitVec 8)) : Prop where
  addr : addr = h.placeAt k
  buf : buf = (h.frameAt k).bytes.take TX_CAP
  ctl : h.nic.txFirstCtl = (h.frameAt k).ctl
  sent : h.nic.sent = h.sentAt k

/-- What the thread knows where it is. -/
def AtPc : TxPc → Prop
  | .rest => h.Holds h.closed.length h.nic.curAddr h.nic.curBuf
  | .top => h.Holds h.closed.length h.nic.curAddr h.nic.curBuf
  | .begun addr buf =>
    h.Holds h.closed.length h.nic.curAddr h.nic.curBuf ∧ addr = h.nic.curAddr ∧ buf = h.nic.curBuf
  | .fetched addr buf d =>
    h.Holds h.closed.length h.nic.curAddr h.nic.curBuf ∧ addr = h.nic.curAddr ∧
      buf = h.nic.curBuf ∧ (d.own = true → h.posted[h.closed.length]? = some d)
  | .owned addr buf d opmode =>
    h.Holds h.closed.length h.nic.curAddr h.nic.curBuf ∧ addr = h.nic.curAddr ∧
      buf = h.nic.curBuf ∧ h.posted[h.closed.length]? = some d ∧
      opmode &&& OPMODE_OM = h.nic.opmode &&& OPMODE_OM
  | .ready addr next buf tdes0 _ =>
    h.Holds (h.closed.length + 1) next buf ∧ addr = h.placeAt h.closed.length ∧
      ∃ d, h.posted[h.closed.length]? = some d ∧ tdes0 = (h.frameAt h.closed.length).status d
  | .written next buf _ => h.Holds h.closed.length next buf

/-- What every run keeps. -/
structure Inv : Prop where
  started : h.nic.opmode &&& OPMODE_ST ≠ 0
  prod : h.prod = follow h.nic.txlist h.nic.descrSkip h.first h.posted
  closed : h.closed = closes h.nic.txlist h.nic.descrSkip h.start h.first
    (h.posted.take h.closed.length)
  ring : Outstanding h.nic.txlist h.nic.descrSkip h.mem (h.placeAt h.closed.length)
    (h.posted.drop h.closed.length)
  atPc : h.AtPc h.nic.pc
  demanded : h.demanded ≤ h.posted.length

variable {h k}

theorem length_closes {txlist skip : BitVec 32} (f : TxFrame) (a : BitVec 32) (l : List TxDescr) :
    (closes txlist skip f a l).length = l.length := by
  induction l generalizing f a with
  | nil => rfl
  | cons d l ih => simp [closes, ih]

theorem Inv.count (hi : Inv h) : h.closed.length ≤ h.posted.length := by
  have hlen := congrArg List.length hi.closed
  rw [length_closes, List.length_take] at hlen
  omega

theorem inv_init (hi : Init h) : Inv h := by
  obtain ⟨hposted, hclosed, hdemanded⟩ := hi.history
  refine ⟨hi.started, ?_, ?_, ⟨?_, ?_, ?_, ?_⟩, ?_, ?_⟩
  · rw [hi.first.2.1, hposted]
    rfl
  · rw [hposted, hclosed]
    rfl
  · rw [hposted, List.drop_nil]
    rfl
  · rw [hposted, List.drop_nil]
    exact List.nodup_nil
  · simp [hposted]
  · intro b hb
    rw [hi.mem b] at hb
    exact Bool.noConfusion hb
  · rw [hi.pc]
    refine ⟨?_, ?_, ?_, ?_⟩
    · rw [placeAt, hposted, List.take_nil, hi.first.1]
      rfl
    · rw [frameAt, hposted, List.take_nil, hi.empty.1]
      rfl
    · rw [frameAt, hposted, List.take_nil, hi.first.2.2]
      rfl
    · rw [sentAt, hposted, List.take_nil, hi.empty.2]
      simp [frames]
  · rw [hdemanded]
    exact Nat.zero_le _

/-- What the thread holds depends on the descriptors it has come past. -/
theorem Holds.of_same {h' : TxHistory} {addr : BitVec 32} {buf : List (BitVec 8)}
    (hh : h.Holds k addr buf) (hposted : h'.posted.take k = h.posted.take k)
    (hfirst : h'.first = h.first) (hctl : h'.firstCtl = h.firstCtl)
    (hlist : h'.nic.txlist = h.nic.txlist) (hskip : h'.nic.descrSkip = h.nic.descrSkip)
    (hmode : h'.nic.opmode &&& OPMODE_OM = h.nic.opmode &&& OPMODE_OM)
    (hfc : h'.nic.txFirstCtl = h.nic.txFirstCtl) (hsent : h'.nic.sent = h.nic.sent) :
    h'.Holds k addr buf := by
  have hstart : h'.start = h.start := by rw [start, hctl, start]
  refine ⟨hh.addr.trans ?_, hh.buf.trans ?_, (hfc.trans hh.ctl).trans ?_, (hsent.trans hh.sent).trans ?_⟩
  · rw [placeAt, placeAt, hposted, hfirst, hlist, hskip]
  · rw [frameAt, frameAt, hposted, hstart]
  · rw [frameAt, frameAt, hposted, hstart]
  · rw [sentAt, sentAt, hposted, hstart, hmode]

/-- A step of the chip that leaves the ring alone. -/
theorem Inv.of_nic (hi : Inv h) {nic : TulipTx} {b : Bool} (hst : nic.opmode &&& OPMODE_ST ≠ 0)
    (hlist : nic.txlist = h.nic.txlist) (hskip : nic.descrSkip = h.nic.descrSkip)
    (hat : AtPc { h with nic := nic, finished := b } nic.pc) :
    Inv { h with nic := nic, finished := b } := by
  refine ⟨hst, ?_, ?_, ?_, hat, hi.demanded⟩
  · show h.prod = follow nic.txlist nic.descrSkip h.first h.posted
    rw [hlist, hskip]
    exact hi.prod
  · show h.closed = closes nic.txlist nic.descrSkip _ _ _
    rw [hlist, hskip]
    exact hi.closed
  · show Outstanding nic.txlist nic.descrSkip h.mem
      (follow nic.txlist nic.descrSkip h.first (h.posted.take h.closed.length)) _
    rw [hlist, hskip]
    exact hi.ring

theorem Holds.of_nic {nic : TulipTx} {b : Bool} (hh : h.Holds k h.nic.curAddr h.nic.curBuf)
    (hs : TulipTx.Same h.nic nic) :
    Holds { h with nic := nic, finished := b } k nic.curAddr nic.curBuf := by
  rw [hs.curAddr, hs.curBuf]
  exact hh.of_same rfl rfl rfl hs.txlist hs.descrSkip (by rw [hs.opmode]) hs.txFirstCtl hs.sent

theorem placeAt_nic {nic : TulipTx} {b : Bool} (hlist : nic.txlist = h.nic.txlist)
    (hskip : nic.descrSkip = h.nic.descrSkip) :
    placeAt { h with nic := nic, finished := b } k = h.placeAt k := by
  simp only [placeAt, hlist, hskip]

theorem sentAt_nic {nic : TulipTx} {b : Bool}
    (hmode : nic.opmode &&& OPMODE_OM = h.nic.opmode &&& OPMODE_OM) :
    sentAt { h with nic := nic, finished := b } k = h.sentAt k := by
  simp only [sentAt, hmode]
  rfl

theorem Inv.of_same (hi : Inv h) {nic : TulipTx} {b : Bool} (hs : TulipTx.Same h.nic nic)
    (hat : AtPc { h with nic := nic, finished := b } nic.pc) :
    Inv { h with nic := nic, finished := b } :=
  hi.of_nic (by rw [hs.opmode]; exact hi.started) hs.txlist hs.descrSkip hat

/-! ## Steps of the thread -/

theorem Inv.next_own (hi : Inv h) : (h.mem (h.placeAt h.closed.length)).own = true ↔
    h.posted[h.closed.length]? = some (h.mem (h.placeAt h.closed.length)) := by
  rw [hi.ring.head, List.head?_drop]

theorem placeAt_succ {d : TxDescr} (hd : h.posted[k]? = some d) :
    h.placeAt (k + 1) = d.next h.nic.txlist h.nic.descrSkip (h.placeAt k) := by
  rw [placeAt, List.take_add_one, hd, follow_append]
  rfl

theorem frameAt_succ {d : TxDescr} (hd : h.posted[k]? = some d) :
    h.frameAt (k + 1) = (h.frameAt k).after d := by
  rw [frameAt, List.take_add_one, hd, List.foldl_append]
  rfl

theorem sentAt_succ {d : TxDescr} (hd : h.posted[k]? = some d) :
    h.sentAt (k + 1) = h.sentAt k ++
      if h.nic.opmode &&& OPMODE_OM = 0 then ((h.frameAt k).ended d).toList else [] := by
  rw [sentAt, sentAt, List.take_add_one, hd]
  split
  · rw [frames_append]
    simp only [Option.toList_some, frames, List.append_nil]
    rfl
  · rfl

theorem thread_begun {addr : BitVec 32} {buf : List (BitVec 8)} (hi : Inv h)
    (hpc : h.nic.pc = .begun addr buf) : Inv h.thread := by
  obtain ⟨hh, ha, hb⟩ : h.AtPc (.begun addr buf) := hpc ▸ hi.atPc
  have hs : TulipTx.Same h.nic { h.nic with pc := .fetched addr buf (h.mem addr) } :=
    ⟨rfl, rfl, rfl, rfl, rfl, rfl, rfl⟩
  rw [thread, hpc]
  refine hi.of_same (b := h.finished) hs ⟨hh.of_nic hs, ha, hb, fun hown => ?_⟩
  rw [ha, hh.addr] at hown ⊢
  exact hi.next_own.mp hown

theorem thread_accept {addr : BitVec 32} {buf : List (BitVec 8)} {d : TxDescr}
    (hpc : h.nic.pc = .fetched addr buf d) (hown : d.own = true) :
    h.thread = { h with nic := h.nic.accept addr buf d } := by
  simp [thread, hpc, hown]

theorem thread_giveUp {addr : BitVec 32} {buf : List (BitVec 8)} {d : TxDescr}
    (hpc : h.nic.pc = .fetched addr buf d) (hown : d.own = false) :
    h.thread = { h with nic := h.nic.giveUp, finished := true } := by
  simp [thread, hpc, hown]

theorem thread_fetched {addr : BitVec 32} {buf : List (BitVec 8)} {d : TxDescr} (hi : Inv h)
    (hpc : h.nic.pc = .fetched addr buf d) : Inv h.thread := by
  obtain ⟨hh, ha, hb, hd⟩ : h.AtPc (.fetched addr buf d) := hpc ▸ hi.atPc
  cases hown : d.own with
  | true =>
    rw [thread_accept hpc hown]
    obtain ⟨hs, -, hpc'⟩ := TulipTx.accept_spec (s := h.nic) addr buf d
    refine hi.of_same (b := h.finished) hs ?_
    rw [hpc']
    exact ⟨hh.of_nic hs, ha.trans hs.curAddr.symm,
      hb.trans hs.curBuf.symm, hd hown, by rw [hs.opmode]⟩
  | false =>
    rw [thread_giveUp hpc hown]
    obtain ⟨hs, hpc'⟩ := TulipTx.giveUp_spec (s := h.nic)
    refine hi.of_same (b := true) hs ?_
    rw [hpc']
    exact hh.of_nic hs

theorem thread_top (hi : Inv h) (hpc : h.nic.pc = .top) : Inv h.thread := by
  have hh : h.AtPc .top := hpc ▸ hi.atPc
  obtain ⟨hs, -, hpc'⟩ := TulipTx.begin_spec hi.started
  rw [thread, hpc]
  refine hi.of_same hs ?_
  rw [hpc']
  have hh' := Holds.of_nic (b := h.finished || decide (h.nic.opmode &&& OPMODE_ST = 0 ∨
    h.nic.suspend = true)) hh hs
  split
  · exact hh'
  · exact ⟨hh', hs.curAddr.symm, hs.curBuf.symm⟩

theorem thread_owned {addr opmode : BitVec 32} {buf : List (BitVec 8)} {d : TxDescr} (hi : Inv h)
    (hpc : h.nic.pc = .owned addr buf d opmode) : Inv h.thread := by
  obtain ⟨hh, ha, hb, hd, hop⟩ : h.AtPc (.owned addr buf d opmode) := hpc ▸ hi.atPc
  have he := TulipTx.exec_spec (s := h.nic) (f := h.frameAt h.closed.length) addr d hop hh.ctl
  rw [← hh.buf, ← hb] at he
  have hom := he.mode OPMODE_OM (by decide)
  obtain ⟨ti, hpc'⟩ := he.pc
  have hbuf : h.frameAt (h.closed.length + 1) = (h.frameAt h.closed.length).after d :=
    frameAt_succ hd
  rw [thread, hpc]
  refine hi.of_nic (b := h.finished) ?_ he.list.1 he.list.2 ?_
  · rw [he.mode OPMODE_ST (by decide)]
    exact hi.started
  · rw [hpc']
    refine ⟨⟨?_, ?_, ?_, ?_⟩, ?_, d, hd, rfl⟩
    · rw [placeAt_nic he.list.1 he.list.2, ha, hh.addr]
      exact (placeAt_succ hd).symm
    · exact congrArg (fun f : TxFrame => f.bytes.take TX_CAP) hbuf.symm
    · rw [he.ctl]
      exact congrArg TxFrame.ctl hbuf.symm
    · rw [sentAt_nic hom, he.sent, hh.sent]
      exact (sentAt_succ hd).symm
    · rw [placeAt_nic he.list.1 he.list.2, ha, hh.addr]

theorem thread_ready {addr next tdes0 : BitVec 32} {buf : List (BitVec 8)} {ti : Bool} (hi : Inv h)
    (hpc : h.nic.pc = .ready addr next buf tdes0 ti) : Inv h.thread := by
  obtain ⟨hh, ha, d, hd, ht⟩ : h.AtPc (.ready addr next buf tdes0 ti) := hpc ▸ hi.atPc
  have htake : h.posted.take (h.closed.length + 1) = h.posted.take h.closed.length ++ [d] := by
    rw [List.take_add_one, hd]
    rfl
  have hdrop : h.posted.drop h.closed.length = d :: h.posted.drop (h.closed.length + 1) := by
    obtain ⟨hlt, hget⟩ := List.getElem?_eq_some_iff.mp hd
    rw [List.drop_eq_getElem_cons hlt, hget]
  have hlen : (h.closed ++ [(addr, tdes0)]).length = h.closed.length + 1 := by simp
  have hring := hi.ring
  rw [hdrop] at hring
  have hfree : TxDescr.own { h.mem (h.placeAt h.closed.length) with tdes0 := tdes0 } = false := by
    simp only [TxDescr.own, ht, TulipTx.status_own]
    decide
  rw [thread, hpc]
  refine ⟨hi.started, hi.prod, ?_, ?_, ?_, hi.demanded⟩
  · show h.closed ++ [(addr, tdes0)] = closes _ _ _ _ (h.posted.take (h.closed ++ [(addr, tdes0)]).length)
    rw [hlen, htake, closes_append, ha, ht]
    exact congrArg (· ++ _) hi.closed
  · show Outstanding _ _ (Function.update h.mem addr _)
      (follow _ _ _ (h.posted.take (h.closed ++ [(addr, tdes0)]).length))
      (h.posted.drop (h.closed ++ [(addr, tdes0)]).length)
    rw [hlen, ha]
    have hclose := hring.close hfree
    rw [← placeAt_succ hd] at hclose
    exact hclose
  · show Holds _ (h.closed ++ [(addr, tdes0)]).length next buf
    rw [hlen]
    exact hh.of_same rfl rfl rfl rfl rfl rfl rfl rfl

theorem thread_written {next : BitVec 32} {buf : List (BitVec 8)} {ti : Bool} (hi : Inv h)
    (hpc : h.nic.pc = .written next buf ti) : Inv h.thread := by
  have hh : h.AtPc (.written next buf ti) := hpc ▸ hi.atPc
  obtain ⟨hs, -, hpc'⟩ := TulipTx.commit_spec (s := h.nic) next buf ti
  rw [thread, hpc]
  refine hi.of_nic (b := h.finished) (by rw [hs.opmode]; exact hi.started) hs.txlist hs.descrSkip ?_
  rw [hpc']
  show Holds _ h.closed.length (h.nic.commit next buf ti).curAddr (h.nic.commit next buf ti).curBuf
  rw [hs.curAddr, hs.curBuf]
  exact Holds.of_same hh rfl rfl rfl hs.txlist hs.descrSkip (by rw [hs.opmode]) hs.txFirstCtl hs.sent

theorem inv_thread (hi : Inv h) : Inv h.thread := by
  cases hpc : h.nic.pc with
  | rest =>
    have hh : h.AtPc .rest := hpc ▸ hi.atPc
    rw [thread, hpc]
    exact hi.of_same (b := h.finished) ⟨rfl, rfl, rfl, rfl, rfl, rfl, rfl⟩
      (Holds.of_nic hh ⟨rfl, rfl, rfl, rfl, rfl, rfl, rfl⟩)
  | top => exact thread_top hi hpc
  | begun addr buf => exact thread_begun hi hpc
  | fetched addr buf d => exact thread_fetched hi hpc
  | owned addr buf d opmode => exact thread_owned hi hpc
  | ready addr next buf tdes0 ti => exact thread_ready hi hpc
  | written next buf ti => exact thread_written hi hpc

/-! ## Steps of the driver -/

/-- What the thread knows stands while the driver posts and writes registers. -/
theorem AtPc.of_driver {h' : TxHistory} {pc : TxPc} (hat : h.AtPc pc)
    (hcount : h.closed.length ≤ h.posted.length) (hs : TulipTx.Same h.nic h'.nic)
    (hfirst : h'.first = h.first) (hctl : h'.firstCtl = h.firstCtl)
    (hclosed : h'.closed = h.closed) {l : List TxDescr} (hposted : h'.posted = h.posted ++ l) :
    h'.AtPc pc := by
  have hget {d : TxDescr} (hd : h.posted[h.closed.length]? = some d) :
      h'.posted[h'.closed.length]? = some d := by
    obtain ⟨hlt, -⟩ := List.getElem?_eq_some_iff.mp hd
    rw [hposted, hclosed, List.getElem?_append_left hlt]
    exact hd
  have holds {k : Nat} {addr : BitVec 32} {buf : List (BitVec 8)} (hk : k ≤ h.posted.length)
      (hh : h.Holds k addr buf) : h'.Holds k addr buf :=
    hh.of_same (by rw [hposted, List.take_append_of_le_length hk]) hfirst hctl hs.txlist
      hs.descrSkip (by rw [hs.opmode]) hs.txFirstCtl hs.sent
  have hrest (hh : h.Holds h.closed.length h.nic.curAddr h.nic.curBuf) :
      h'.Holds h'.closed.length h'.nic.curAddr h'.nic.curBuf := by
    rw [hclosed, hs.curAddr, hs.curBuf]
    exact holds hcount hh
  cases pc with
  | rest => exact hrest hat
  | top => exact hrest hat
  | begun addr buf =>
    obtain ⟨hh, ha, hb⟩ := hat
    exact ⟨hrest hh, ha.trans hs.curAddr.symm, hb.trans hs.curBuf.symm⟩
  | fetched addr buf d =>
    obtain ⟨hh, ha, hb, hd⟩ := hat
    exact ⟨hrest hh, ha.trans hs.curAddr.symm, hb.trans hs.curBuf.symm, fun ho => hget (hd ho)⟩
  | owned addr buf d opmode =>
    obtain ⟨hh, ha, hb, hd, hop⟩ := hat
    exact ⟨hrest hh, ha.trans hs.curAddr.symm, hb.trans hs.curBuf.symm, hget hd,
      by rw [hs.opmode]; exact hop⟩
  | ready addr next buf tdes0 ti =>
    obtain ⟨hh, ha, d, hd, ht⟩ := hat
    obtain ⟨hlt, -⟩ := List.getElem?_eq_some_iff.mp hd
    refine ⟨?_, ?_, d, hget hd, ?_⟩
    · rw [hclosed]
      exact holds hlt hh
    · rw [ha, hclosed, placeAt, placeAt, hposted, List.take_append_of_le_length hcount, hfirst,
        hs.txlist, hs.descrSkip]
    · rw [ht, hclosed, frameAt, frameAt, start, start, hposted,
        List.take_append_of_le_length hcount, hctl]
  | written next buf ti =>
    show h'.Holds h'.closed.length next buf
    rw [hclosed]
    exact holds hcount hat

theorem inv_post (hi : Inv h) {d : TxDescr} (ha : h.Allowed (.post d)) : Inv (h.step (.post d)) := by
  obtain ⟨hown, hfree⟩ := ha
  have hcount := hi.count
  have htake : (h.posted ++ [d]).take h.closed.length = h.posted.take h.closed.length :=
    List.take_append_of_le_length hcount
  have hprod : h.prod = follow h.nic.txlist h.nic.descrSkip (h.placeAt h.closed.length)
      (h.posted.drop h.closed.length) := by
    rw [hi.prod, placeAt, ← follow_append, List.take_append_drop]
  rw [hprod] at hfree
  refine ⟨hi.started, ?_, ?_, ?_, ?_, ?_⟩
  · show d.next h.nic.txlist h.nic.descrSkip h.prod =
      follow h.nic.txlist h.nic.descrSkip h.first (h.posted ++ [d])
    rw [follow_append, ← hi.prod]
    rfl
  · show h.closed = closes _ _ _ _ ((h.posted ++ [d]).take h.closed.length)
    rw [htake]
    exact hi.closed
  · show Outstanding h.nic.txlist h.nic.descrSkip (Function.update h.mem h.prod d)
      (follow h.nic.txlist h.nic.descrSkip h.first ((h.posted ++ [d]).take h.closed.length))
      ((h.posted ++ [d]).drop h.closed.length)
    rw [htake, List.drop_append_of_le_length hcount, hprod]
    exact hi.ring.post hown hfree
  · exact hi.atPc.of_driver hcount ⟨rfl, rfl, rfl, rfl, rfl, rfl, rfl⟩ rfl rfl rfl rfl
  · show h.demanded ≤ (h.posted ++ [d]).length
    rw [List.length_append]
    exact hi.demanded.trans (Nat.le_add_right _ _)

theorem inv_step (hi : Inv h) {op : TxOp} (ha : h.Allowed op) : Inv (h.step op) := by
  cases op with
  | post d => exact inv_post hi ha
  | txpoll =>
    refine ⟨hi.started, hi.prod, hi.closed, hi.ring, ?_, le_rfl⟩
    exact hi.atPc.of_driver hi.count ⟨rfl, rfl, rfl, rfl, rfl, rfl, rfl⟩ rfl rfl rfl
      (List.append_nil _).symm
  | clear data =>
    refine ⟨hi.started, hi.prod, hi.closed, hi.ring, ?_, hi.demanded⟩
    exact hi.atPc.of_driver hi.count ⟨rfl, rfl, rfl, rfl, rfl, rfl, rfl⟩ rfl rfl rfl
      (List.append_nil _).symm
  | thread => exact inv_thread hi

/-! ## Poll demands -/

/-- While a descriptor polled for is left, the thread is on its way to it. -/
def Polled (h : TxHistory) : Prop :=
  h.closed.length < h.demanded → h.nic.suspend = false ∧ ¬(h.nic.pc = .rest ∧ h.finished = true) ∧
    ∀ addr buf d, h.nic.pc = .fetched addr buf d → d.own = true

/-- A fetched descriptor that is not the chip's was the next one. -/
theorem Inv.fetched_place (hi : Inv h) {addr : BitVec 32} {buf : List (BitVec 8)} {d : TxDescr}
    (hpc : h.nic.pc = .fetched addr buf d) : addr = h.placeAt h.closed.length := by
  obtain ⟨hh, ha, -⟩ : h.AtPc (.fetched addr buf d) := hpc ▸ hi.atPc
  exact ha.trans hh.addr

/-- The next one is the chip's exactly when a posted descriptor is left. -/
theorem Inv.next_own_iff (hi : Inv h) :
    (h.mem (h.placeAt h.closed.length)).own = true ↔ h.closed.length < h.posted.length := by
  rw [hi.next_own]
  constructor
  · intro hd
    exact (List.getElem?_eq_some_iff.mp hd).1
  · intro hlt
    have hd : h.posted[h.closed.length]? = some h.posted[h.closed.length] :=
      List.getElem?_eq_getElem hlt
    have hown := hi.ring.own h.posted[h.closed.length] (by
      rw [List.drop_eq_getElem_cons hlt]
      exact List.mem_cons_self)
    have hstand := hi.ring.stand
    rw [List.drop_eq_getElem_cons hlt] at hstand
    rw [hd, ← (List.cons.inj hstand).1]

theorem polled_thread (hi : Inv h) (hp : Polled h) : Polled h.thread := by
  cases hpc : h.nic.pc with
  | rest =>
    rw [thread, hpc]
    intro hlt
    exact ⟨(hp hlt).1, fun hr => TxPc.noConfusion hr.1, fun _ _ _ hf => TxPc.noConfusion hf⟩
  | top =>
    obtain ⟨-, hsusp, hpc'⟩ := TulipTx.begin_spec hi.started
    rw [thread, hpc]
    intro hlt
    have hs := (hp hlt).1
    rw [hs, if_neg Bool.false_ne_true] at hpc'
    refine ⟨hsusp.trans hs, fun hr => ?_, fun _ _ _ hf => ?_⟩
    · exact TxPc.noConfusion (hpc'.symm.trans hr.1)
    · exact TxPc.noConfusion (hpc'.symm.trans hf)
  | begun addr buf =>
    obtain ⟨hh, ha, -⟩ : h.AtPc (.begun addr buf) := hpc ▸ hi.atPc
    rw [thread, hpc]
    intro hlt
    refine ⟨(hp hlt).1, fun hr => TxPc.noConfusion hr.1, fun addr' buf' d hf => ?_⟩
    obtain ⟨-, -, rfl⟩ := TxPc.fetched.inj hf
    -- what was demanded has been posted, so the adapter owns the descriptor read
    rw [ha, hh.addr, hi.next_own_iff]
    exact Nat.lt_of_lt_of_le hlt hi.demanded
  | fetched addr buf d =>
    cases hown : d.own with
    | true =>
      obtain ⟨-, hsusp, hpc'⟩ := TulipTx.accept_spec (s := h.nic) addr buf d
      rw [thread_accept hpc hown]
      intro hlt
      refine ⟨hsusp.trans (hp hlt).1, fun hr => ?_, fun _ _ _ hf => ?_⟩
      · exact TxPc.noConfusion (hpc'.symm.trans hr.1)
      · exact TxPc.noConfusion (hpc'.symm.trans hf)
    | false =>
      rw [thread_giveUp hpc hown]
      intro hlt
      -- a descriptor not owned is not among those demanded
      have hd := (hp hlt).2.2 addr buf d hpc
      rw [hown] at hd
      exact Bool.noConfusion hd
  | owned addr buf d opmode =>
    obtain ⟨hh, ha, hb, hd, hop⟩ : h.AtPc (.owned addr buf d opmode) := hpc ▸ hi.atPc
    have he := TulipTx.exec_spec (s := h.nic) (f := h.frameAt h.closed.length) addr d hop hh.ctl
    rw [← hh.buf, ← hb] at he
    obtain ⟨ti, hpc'⟩ := he.pc
    rw [thread, hpc]
    intro hlt
    refine ⟨he.suspend.trans (hp hlt).1, fun hr => ?_, fun _ _ _ hf => ?_⟩
    · exact TxPc.noConfusion (hpc'.symm.trans hr.1)
    · exact TxPc.noConfusion (hpc'.symm.trans hf)
  | ready addr next buf tdes0 ti =>
    rw [thread, hpc]
    intro hlt
    have hlt' : h.closed.length < h.demanded := by
      refine Nat.lt_of_le_of_lt ?_ hlt
      simp
    exact ⟨(hp hlt').1, fun hr => TxPc.noConfusion hr.1, fun _ _ _ hf => TxPc.noConfusion hf⟩
  | written next buf ti =>
    obtain ⟨-, hsusp, hpc'⟩ := TulipTx.commit_spec (s := h.nic) next buf ti
    rw [thread, hpc]
    intro hlt
    refine ⟨hsusp.trans (hp hlt).1, fun hr => ?_, fun _ _ _ hf => ?_⟩
    · exact TxPc.noConfusion (hpc'.symm.trans hr.1)
    · exact TxPc.noConfusion (hpc'.symm.trans hf)

theorem polled_step (hi : Inv h) (hp : Polled h) {op : TxOp} (hs : h.Safe op) :
    Polled (h.step op) := by
  cases op with
  | post d => exact hp
  | txpoll =>
    intro hlt
    refine ⟨rfl, fun hr => Bool.noConfusion hr.2, fun addr buf d hf => ?_⟩
    by_contra hown
    have hfree := hs addr buf d hf (Bool.eq_false_iff.mpr hown)
    rw [hi.fetched_place hf, hi.next_own_iff.mpr hlt] at hfree
    exact Bool.noConfusion hfree
  | clear data => exact hp
  | thread => exact polled_thread hi hp

/-! ## Runs -/

theorem Reachable.inv {ok : TxHistory → TxOp → Prop} (hok : ∀ h op, ok h op → h.Allowed op)
    (hr : Reachable ok h) : Inv h :=
  Lib.Reach.inv (P := Inv) (fun _ => inv_init) (fun h op hi ho => inv_step hi (hok h op ho)) hr

theorem Reachable.polled (hr : Reachable (fun h op => h.Allowed op ∧ h.Safe op) h) :
    Inv h ∧ Polled h := by
  refine Lib.Reach.inv (P := fun h => Inv h ∧ Polled h) (fun h hi => ⟨inv_init hi, fun hlt => ?_⟩)
    (fun h op hi ho => ⟨inv_step hi.1 ho.1, polled_step hi.1 hi.2 ho.2⟩) hr
  rw [hi.history.2.2] at hlt
  exact absurd hlt (Nat.not_lt_zero _)

/-- How many descriptors have been executed: the last of them may not be written back yet. -/
def executed (h : TxHistory) : Nat :=
  match h.nic.pc with
  | .ready _ _ _ _ _ => h.closed.length + 1
  | _ => h.closed.length

theorem Inv.sent (hi : Inv h) : h.nic.sent = h.sentAt h.executed := by
  have hat := hi.atPc
  unfold executed
  cases hpc : h.nic.pc <;> rw [hpc] at hat
  case rest => exact Holds.sent hat
  case top => exact Holds.sent hat
  case written => exact Holds.sent hat
  case begun => exact hat.1.sent
  case fetched => exact hat.1.sent
  case owned => exact hat.1.sent
  case ready => exact hat.1.sent

/-- What the driver relies on. -/
structure Transmits (h : TxHistory) : Prop where
  /-- Descriptors are closed once, in ring order. -/
  once : h.closed = closes h.nic.txlist h.nic.descrSkip h.start h.first
    (h.posted.take h.closed.length)
  /-- The chip owns the rest of those posted, and no other. -/
  left : ∀ a, (h.mem a).own = true ↔ a ∈ places h.nic.txlist h.nic.descrSkip
    (h.placeAt h.closed.length) (h.posted.drop h.closed.length)
  /-- The back end was handed the frames of those executed. -/
  sent : h.nic.sent = h.sentAt h.executed
  /-- A data descriptor's status says there was an error exactly when it ends a frame too long. -/
  errors : ∀ k d entry, h.posted[k]? = some d → h.closed[k]? = some entry →
    d.has TDCTL_Tx_SET = false →
      (entry.2.getLsbD 15 = true ↔ (h.frameAt k).TooLong d) ∧
      (entry.2.getLsbD 14 = true ↔ (h.frameAt k).TooLong d)
  /-- A first segment to the next last segment among them makes one frame, in its place. -/
  framed : h.nic.opmode &&& OPMODE_OM = 0 → ∀ before d l later,
    h.posted.take h.executed = before ++ d :: l ++ later → IsFrame d l →
      ∃ rest, h.nic.sent = frames h.start before ++ sentOf d.tdes1 (d :: l) ++ rest
  length : ∀ frame ∈ h.nic.sent, frame.length ≤ 1514
  /-- After a pass that ended since the last poll demand, nothing posted before it is left. -/
  polled : h.nic.pc = .rest → h.finished = true → h.demanded ≤ h.closed.length

/-- The status written back for each descriptor. -/
theorem Inv.closed_status (hi : Inv h) {d : TxDescr} {entry : BitVec 32 × BitVec 32}
    (hd : h.posted[k]? = some d) (he : h.closed[k]? = some entry) :
    entry.2 = (h.frameAt k).status d := by
  have hk : k < h.closed.length := (List.getElem?_eq_some_iff.mp he).1
  rw [hi.closed, closes_getElem?, List.getElem?_take_of_lt hk, hd, List.take_take,
    min_eq_left hk.le] at he
  rw [← Option.some.inj he]
  rfl

theorem Inv.transmits (hi : Inv h) (hp : Polled h) : Transmits h where
  once := hi.closed
  left a := by
    refine ⟨hi.ring.only a, fun ha => ?_⟩
    have hmem : h.mem a ∈ h.posted.drop h.closed.length := by
      have := List.mem_map_of_mem (f := h.mem) ha
      rwa [hi.ring.stand] at this
    exact hi.ring.own _ hmem
  sent := hi.sent
  errors := by
    intro k d entry hd he hdata
    rw [hi.closed_status hd he]
    exact TulipTx.status_error _ hdata
  framed := by
    intro hom before d l later hsplit hframe
    rw [hi.sent, sentAt, if_pos hom, hsplit, frames_append, frames_append, frames_isFrame _ hframe]
    exact ⟨_, rfl⟩
  length := by
    rw [hi.sent, sentAt]
    split
    · exact length_frames_le _ _
    · simp
  polled hpc hfin := by
    by_contra hlt
    exact (hp (Nat.not_le.mp hlt)).2.1 ⟨hpc, hfin⟩

/-- In every run of safe steps the transmitter sends what was posted, once; a poll demand that is not
safe leaves a descriptor behind in the thread's next step. -/
theorem tulip_sends_posted (hr : Reachable (fun h op => h.Allowed op ∧ h.Safe op) h) :
    Transmits h ∧ (¬h.Safe .txpoll → ((h.step .txpoll).step .thread).nic.pc = .rest ∧
      ((h.step .txpoll).step .thread).finished = true ∧
      ((h.step .txpoll).step .thread).closed.length <
        ((h.step .txpoll).step .thread).demanded) := by
  obtain ⟨hi, hp⟩ := hr.polled
  refine ⟨hi.transmits hp, fun hs => ?_⟩
  simp only [Safe, not_forall, Bool.not_eq_false] at hs
  obtain ⟨addr, buf, d, hpc, hown, hmem⟩ := hs
  rw [hi.fetched_place hpc, hi.next_own_iff] at hmem
  have ht : (h.step .txpoll).step .thread =
      { h.step .txpoll with nic := h.nic.writeTxpoll.giveUp, finished := true } :=
    thread_giveUp (h := h.step .txpoll) hpc hown
  rw [ht]
  exact ⟨TulipTx.giveUp_spec.2, rfl, hmem⟩

/-- Started on an empty ring at 0. -/
def emptyRing : TxHistory where
  nic :=
    { opmode := OPMODE_ST, status := 0, txlist := 0, descrSkip := 0, curAddr := 0, curBuf := []
      suspend := false, txPoll := false, txFirstCtl := 0, setupFilter := [], setupLoaded := false
      filterDirty := false, looped := [], sent := [], pc := .rest }
  mem _ := ⟨0, 0, 0, 0, fun _ => 0⟩
  first := 0
  firstCtl := 0
  prod := 0
  posted := []
  closed := []
  demanded := 0
  finished := false

theorem init_emptyRing : Init emptyRing :=
  ⟨by decide, rfl, ⟨rfl, rfl, rfl⟩, ⟨rfl, rfl⟩,
    fun _ => show TxDescr.own ⟨0, 0, 0, 0, fun _ => 0⟩ = false by decide, ⟨rfl, rfl, rfl⟩⟩

/-- A frame of two bytes in one descriptor, without padding. -/
def shortFrame : TxDescr where
  tdes0 := TDSTAT_OWN
  tdes1 := TDCTL_Tx_FS ||| TDCTL_Tx_LS ||| TDCTL_Tx_DPD ||| 2
  tdes2 := 0x1000
  tdes3 := 0
  memory a := a.setWidth 8 + 7

/-- The frame is posted and polled for, and the thread makes a pass. -/
def postedThenPass : List TxOp := [.post shortFrame, .txpoll] ++ List.replicate 10 .thread

theorem tulip_sends_posted_short :
    Transmits (postedThenPass.foldl step emptyRing) ∧
      (postedThenPass.foldl step emptyRing).nic.sent = [[7, 8]] := by
  have h0 : Reachable (fun h op => h.Allowed op ∧ h.Safe op) emptyRing := .start init_emptyRing
  have h1 := h0.next (show Allowed _ (.post shortFrame) ∧ Safe _ (.post shortFrame) from
    ⟨⟨by decide, by decide⟩, trivial⟩)
  have h2 := h1.next (show Allowed _ .txpoll ∧ Safe _ .txpoll from
    ⟨trivial, fun _ _ _ hf => TxPc.noConfusion hf⟩)
  have h12 := h2.foldl (List.replicate 10 .thread) fun op hop h => by
    rw [List.eq_of_mem_replicate hop]
    exact ⟨trivial, trivial⟩
  exact ⟨(tulip_sends_posted h12).1, by decide +kernel⟩

/-- The thread fetches the empty descriptor; then the frame is posted and polled for. -/
def polledTooEarly : List TxOp := [.thread, .thread, .thread, .post shortFrame, .txpoll, .thread]

/-- The pass is over and the frame waits for the next poll demand. -/
theorem tulip_forgets_poll : Reachable Allowed (polledTooEarly.foldl step emptyRing) ∧
    (polledTooEarly.foldl step emptyRing).nic.suspend = true ∧
    ¬Transmits (polledTooEarly.foldl step emptyRing) := by
  have h0 : Reachable Allowed emptyRing := .start init_emptyRing
  have h3 := h0.foldl (List.replicate 3 .thread) fun op hop h => by
    rw [List.eq_of_mem_replicate hop]
    exact trivial
  have h4 := h3.next (show Allowed _ (.post shortFrame) from ⟨by decide, by decide +kernel⟩)
  have h5 := h4.next (show Allowed _ .txpoll from trivial)
  refine ⟨h5.next (show Allowed _ .thread from trivial), by decide +kernel, fun ht => ?_⟩
  have hle := ht.polled rfl rfl
  exact absurd hle (by decide +kernel)

end TxHistory

end Alphabox.Pci
