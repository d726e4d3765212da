import Mathlib.Data.List.Induction
import Mathlib.Tactic.IntervalCases
import Mathlib.Tactic.Linarith
import Alphabox.Pci.Eeprom93cx6

/-!
# A serial EEPROM: the chip follows the wire protocol

`Tracks` says what the chip holds for the bits that have followed the start bit: the field it is
in, how many of its bits have come, and what they make up. Every call of `set_pins` keeps it, and
changes the words and the write enable by the command that the pins complete.
-/

namespace Alphabox.Pci

namespace Microwire

/-! ## Bits -/

theorem val_snoc (l : List Bool) (b : Bool) : val (l ++ [b]) = 2 * val l + b.toNat := by
  simp [val, List.foldl_append]

theorem val_lt (l : List Bool) : val l < 2 ^ l.length := by
  induction l using List.reverseRecOn with
  | nil => decide
  | append_singleton l b ih =>
    rw [val_snoc, List.length_append, List.length_singleton, pow_succ]
    have := Bool.toNat_lt b
    omega

theorem body_snoc (bits : List Bool) (b : Bool) : body (bits ++ [b]) =
    match body bits with
    | none => if b then some [] else none
    | some rest => some (rest ++ [b]) := by
  unfold body
  rw [List.dropWhile_append]
  cases h : bits.dropWhile (!·) with
  | nil => cases b <;> simp
  | cons c rest => simp

/-- The command in what has followed a start bit. -/
def frameOf (abits : Nat) (rest : List Bool) : Option Frame :=
  if rest.length < 2 + abits then none
  else some ⟨opOf abits (val (rest.take 2)) (val ((rest.drop 2).take abits)),
    val ((rest.drop 2).take abits), rest.drop (2 + abits)⟩

theorem frame_eq (abits : Nat) (bits : List Bool) : frame abits bits =
    (body bits).bind (frameOf abits) :=
  rfl

/-- The write enable after a command. -/
def Op.enables : Op → Bool → Bool
  | .enable, _ => true
  | .disable, _ => false
  | _, en => en

/-- The write enable after the pins. -/
def enableAfter (on : Bool) : Option Frame → Bool
  | some f => f.op.enables on
  | none => on

theorem enabled_cons (abits : Nat) (p : Pins) (past : List Pins) : enabled abits (p :: past) =
    enableAfter (enabled abits past) (completed abits past p) := by
  rw [enabled]
  cases completed abits past p with
  | none => rfl
  | some f =>
    obtain ⟨op, a, d⟩ := f
    cases op <;> rfl

end Microwire

open Microwire

namespace Eeprom93cx6

variable {abits : Nat} {s : Eeprom93cx6}

theorem shiftIn_eq {v : Nat} (h : s.shift = BitVec.ofNat 32 v) (di : Bool) :
    s.shiftIn di = BitVec.ofNat 32 (2 * v + di.toNat) := by
  have hor : (v % 2 ^ 31) <<< 1 ||| di.toNat = 2 * (v % 2 ^ 31) + di.toNat := by
    rw [← Nat.shiftLeft_add_eq_or_of_lt (Bool.toNat_lt di), Nat.shiftLeft_eq]
    omega
  have hb : (if di then 1 else 0 : BitVec 32).toNat = di.toNat := by cases di <;> rfl
  have hs : (BitVec.ofNat 32 v <<< 1).toNat = (v % 2 ^ 31) <<< 1 := by
    rw [BitVec.toNat_shiftLeft, BitVec.toNat_ofNat, Nat.shiftLeft_eq, Nat.shiftLeft_eq]
    omega
  refine BitVec.eq_of_toNat_eq ?_
  rw [shiftIn, h, BitVec.toNat_or, hs, hb, hor, BitVec.toNat_ofNat]
  have := Bool.toNat_lt di
  omega

/-! ## Commands -/

/-- The registers that a command is told from: an opcode and an address. -/
structure Holds (abits : Nat) (s : Eeprom93cx6) (o a : Nat) : Prop where
  width : s.abits = abits
  opcode : s.opcode = BitVec.ofNat 8 o
  address : s.address = BitVec.ofNat 16 a
  opcode_lt : o < 4
  address_lt : a < 2 ^ abits

variable {o a : Nat}

theorem Holds.opcode_iff (h : Holds abits s o a) {c : Nat} (hc : c < 4) :
    s.opcode = BitVec.ofNat 8 c ↔ o = c := by
  have ho := h.opcode_lt
  rw [h.opcode]
  constructor
  · intro he
    have := congrArg BitVec.toNat he
    rw [BitVec.toNat_ofNat, BitVec.toNat_ofNat] at this
    omega
  · rintro rfl
    rfl

theorem two_pow_le (h8 : abits ≤ 8) : 2 ^ abits ≤ 256 :=
  Nat.pow_le_pow_right (by decide) h8

theorem ext_lt (h2 : 2 ≤ abits) (ha : a < 2 ^ abits) : a / 2 ^ (abits - 2) < 4 := by
  rw [Nat.div_lt_iff_lt_mul (Nat.two_pow_pos _)]
  calc a < 2 ^ abits := ha
    _ = 4 * 2 ^ (abits - 2) := by
      rw [show (4 : Nat) = 2 ^ 2 from rfl, ← Nat.pow_add]
      congr 1
      omega

theorem Holds.ext_iff (h : Holds abits s o a) (h2 : 2 ≤ abits) (h8 : abits ≤ 8) {c : Nat}
    (hc : c < 4) : s.ext = BitVec.ofNat 16 c ↔ a / 2 ^ (abits - 2) = c := by
  have ha := h.address_lt
  have h256 := two_pow_le h8
  have hlt := ext_lt h2 ha
  have hext : s.ext = BitVec.ofNat 16 (a / 2 ^ (abits - 2)) := by
    refine BitVec.eq_of_toNat_eq ?_
    rw [ext, h.address, h.width, BitVec.toNat_ushiftRight, BitVec.toNat_ofNat, BitVec.toNat_ofNat,
      Nat.shiftRight_eq_div_pow, Nat.mod_eq_of_lt (by omega), Nat.mod_eq_of_lt (by omega)]
  rw [hext]
  generalize a / 2 ^ (abits - 2) = e at *
  constructor
  · intro he
    have := congrArg BitVec.toNat he
    rw [BitVec.toNat_ofNat, BitVec.toNat_ofNat] at this
    omega
  · intro he
    rw [he]

theorem Holds.index (h : Holds abits s o a) (h8 : abits ≤ 8) : s.address.toNat % s.words = a := by
  have ha := h.address_lt
  have h256 := two_pow_le h8
  rw [words, h.width, Nat.one_shiftLeft, h.address, BitVec.toNat_ofNat,
    Nat.mod_eq_of_lt (show a < 2 ^ 16 by omega), Nat.mod_eq_of_lt ha]

theorem ite_data (s : Eeprom93cx6) (data : Nat → BitVec 16) :
    (if s.writeEnabled then { s with data } else s) =
      { s with data := if s.writeEnabled then data else s.data } := by
  split <;> rfl

/-- A complete command does to the words and the write enable what it asks for. -/
theorem commandComplete_eq (h : Holds abits s o a) (h2 : 2 ≤ abits) (h8 : abits ≤ 8)
    {d : List Bool} (hd : opOf abits o a = .write ∨ opOf abits o a = .writeAll →
      s.shift.setWidth 16 = BitVec.ofNat 16 (val (d.take 16))) :
    s.commandComplete = { s with
      data := if s.writeEnabled then Frame.apply abits ⟨opOf abits o a, a, d⟩ s.data else s.data
      writeEnabled := (opOf abits o a).enables s.writeEnabled } := by
  have ho := h.opcode_lt
  have he := ext_lt h2 h.address_lt
  have hidx := h.index h8
  have o0 : s.opcode = 0 ↔ o = 0 := h.opcode_iff (by decide)
  have o1 : s.opcode = 1 ↔ o = 1 := h.opcode_iff (by decide)
  have o3 : s.opcode = 3 ↔ o = 3 := h.opcode_iff (by decide)
  have e0 : s.ext = 0 ↔ a / 2 ^ (abits - 2) = 0 := h.ext_iff h2 h8 (by decide)
  have e2 : s.ext = 2 ↔ a / 2 ^ (abits - 2) = 2 := h.ext_iff h2 h8 (by decide)
  have e3 : s.ext = 3 ↔ a / 2 ^ (abits - 2) = 3 := h.ext_iff h2 h8 (by decide)
  have hw : s.words = 2 ^ abits := by rw [words, h.width, Nat.one_shiftLeft]
  unfold commandComplete
  rw [hidx, hw]
  simp only [o0, o1, o3, e0, e2, e3]
  clear o0 o1 o3 e0 e2 e3 hidx hw h
  generalize hg : a / 2 ^ (abits - 2) = e at *
  interval_cases o
  · interval_cases e
    · have : opOf abits 0 a = .disable := by simp [opOf, hg]
      simp [this, Op.enables, Frame.apply]
    · have : opOf abits 0 a = .writeAll := by simp [opOf, hg]
      rw [hd (.inr this)]
      simp [this, Op.enables, Frame.apply, ite_data]
    · have : opOf abits 0 a = .eraseAll := by simp [opOf, hg]
      simp [this, Op.enables, Frame.apply, ite_data]
    · have : opOf abits 0 a = .enable := by simp [opOf, hg]
      simp [this, Op.enables, Frame.apply]
  · have : opOf abits 1 a = .write := by simp [opOf]
    rw [hd (.inl this)]
    simp [this, Op.enables, Frame.apply, ite_data]
  · have : opOf abits 2 a = .read := by simp [opOf]
    simp [this, Op.enables, Frame.apply]
  · have : opOf abits 3 a = .erase := by simp [opOf]
    simp [this, Op.enables, Frame.apply, ite_data]

/-! ## What the chip holds -/

/-- In a command of opcode `o` and address `a`, after the data bits `d`. -/
def InCommand (abits : Nat) (s : Eeprom93cx6) (o a : Nat) (d : List Bool) : Prop :=
  match opOf abits o a with
  | .read =>
    s.phase = .reading ∧ s.bits = d.length % 16 ∧
      s.address = BitVec.ofNat 16 ((a + d.length / 16) % 2 ^ abits) ∧
      s.outWord = s.data ((a + d.length / 16) % 2 ^ abits) <<< (d.length % 16) ∧
      s.dout = if d.length = 0 then false else stream abits s.data a (d.length - 1)
  | .write | .writeAll =>
    s.phase = .writing ∧ Holds abits s o a ∧ s.bits = min d.length 16 ∧
      s.shift = BitVec.ofNat 32 (val (d.take 16)) ∧ s.dout = true
  | _ => s.phase = .idle ∧ s.dout = true

/-- What the chip holds once it is selected, by the bits that have followed the start bit. -/
def Tracks (abits : Nat) (s : Eeprom93cx6) : Option (List Bool) → Prop
  | none => s.phase = .start ∧ s.dout = true
  | some rest =>
    if rest.length < 2 then
      s.phase = .opcode ∧ s.bits = rest.length ∧ s.shift = BitVec.ofNat 32 (val rest) ∧
        s.dout = true
    else if rest.length < 2 + abits then
      s.phase = .address ∧ s.bits = rest.length - 2 ∧
        s.opcode = BitVec.ofNat 8 (val (rest.take 2)) ∧
        s.shift = BitVec.ofNat 32 (val (rest.drop 2)) ∧ s.dout = true
    else
      InCommand abits s (val (rest.take 2)) (val ((rest.drop 2).take abits)) (rest.drop (2 + abits))

/-- What a command leaves of the words and the write enable. -/
structure Leaves (abits : Nat) (s s' : Eeprom93cx6) (f : Option Frame) : Prop where
  width : s'.abits = s.abits
  words : s'.data = wordsAfter abits s.writeEnabled s.data f
  enable : s'.writeEnabled = enableAfter s.writeEnabled f
  cs : s'.csPrev = s.csPrev
  sk : s'.skPrev = s.skPrev

/-- The command complete with the last bit of an address. -/
def atAddress (f : Option Frame) : Option Frame :=
  f.filter fun f => !(f.op = .write || f.op = .writeAll || f.op = .read) && f.data.isEmpty

theorem clockIn_none (h : Tracks abits s none) (b : Bool) :
    Tracks abits (s.clockIn b) (if b then some [] else none) ∧
      Leaves abits s (s.clockIn b) none := by
  obtain ⟨hp, hd⟩ := h
  rw [clockIn, hp]
  cases b with
  | false => exact ⟨⟨hp, hd⟩, rfl, rfl, rfl, rfl, rfl⟩
  | true => exact ⟨⟨rfl, rfl, rfl, hd⟩, rfl, rfl, rfl, rfl, rfl⟩

theorem setWidth_ofNat {v w n : Nat} (h : w ≤ v) :
    (BitVec.ofNat v n).setWidth w = BitVec.ofNat w n := by
  refine BitVec.eq_of_toNat_eq ?_
  rw [BitVec.toNat_setWidth, BitVec.toNat_ofNat, BitVec.toNat_ofNat]
  exact Nat.mod_mod_of_dvd n (Nat.pow_dvd_pow 2 h)

variable {rest : List Bool}

theorem clockIn_opcode (h2 : 2 ≤ abits) (hr : rest.length < 2) (h : Tracks abits s (some rest))
    (b : Bool) :
    Tracks abits (s.clockIn b) (some (rest ++ [b])) ∧ Leaves abits s (s.clockIn b) none := by
  rw [Tracks, if_pos hr] at h
  obtain ⟨hp, hb, hs, hd⟩ := h
  have hshift := shiftIn_eq hs b
  rw [← val_snoc] at hshift
  have hlen : (rest ++ [b]).length = rest.length + 1 := by simp
  rw [clockIn, hp]
  dsimp only
  rw [hb, hshift, Tracks, hlen]
  by_cases he : rest.length + 1 = 2
  · rw [if_pos he, if_neg (by omega), if_pos (by omega), List.take_of_length_le (by omega),
      List.drop_of_length_le (by omega)]
    have hopcode := @setWidth_ofNat 32 8 (val (rest ++ [b])) (by decide)
    exact ⟨⟨rfl, by dsimp only; omega, hopcode, rfl, hd⟩, rfl, rfl, rfl, rfl, rfl⟩
  · rw [if_neg he, if_pos (by omega)]
    exact ⟨⟨rfl, rfl, rfl, hd⟩, rfl, rfl, rfl, rfl, rfl⟩

theorem drop_snoc (hr : 2 ≤ rest.length) (b : Bool) :
    (rest ++ [b]).drop 2 = rest.drop 2 ++ [b] :=
  List.drop_append_of_le_length hr

theorem take_snoc (hr : 2 ≤ rest.length) (b : Bool) : (rest ++ [b]).take 2 = rest.take 2 :=
  List.take_append_of_le_length hr

theorem clockIn_address (hr : 2 ≤ rest.length) (hlt : rest.length + 1 < 2 + abits)
    (hw : s.abits = abits) (h : Tracks abits s (some rest)) (b : Bool) :
    Tracks abits (s.clockIn b) (some (rest ++ [b])) ∧ Leaves abits s (s.clockIn b) none := by
  rw [Tracks, if_neg (by omega), if_pos (by omega)] at h
  obtain ⟨hp, hb, ho, hs, hd⟩ := h
  have hshift := shiftIn_eq hs b
  rw [← val_snoc, ← drop_snoc hr] at hshift
  have hlen : (rest ++ [b]).length = rest.length + 1 := by simp
  rw [clockIn, hp]
  dsimp only
  rw [hb, hshift, hw, if_pos (by omega), Tracks, hlen, if_neg (by omega), if_pos (by omega),
    take_snoc hr]
  exact ⟨⟨rfl, by dsimp only; omega, ho, rfl, hd⟩, hw.symm, rfl, rfl, rfl, rfl⟩

theorem opOf_read_iff : opOf abits o a = .read ↔ o = 2 := by
  unfold opOf
  dsimp only
  split_ifs <;> simp_all

theorem opOf_write_iff (h2 : 2 ≤ abits) (ho : o < 4) (ha : a < 2 ^ abits) :
    (opOf abits o a = .write ∨ opOf abits o a = .writeAll) ↔
      o = 1 ∨ (o = 0 ∧ a / 2 ^ (abits - 2) = 1) := by
  have he := ext_lt h2 ha
  unfold opOf
  dsimp only
  generalize a / 2 ^ (abits - 2) = e at *
  split_ifs <;> simp <;> omega

/-- The phase after the last bit of an address. -/
theorem startCommand_spec (h2 : 2 ≤ abits) (h8 : abits ≤ 8) (h : Holds abits s o a)
    (hbits : s.bits = 0) (hshift : s.shift = 0) (hd : s.dout = true) :
    InCommand abits s.startCommand o a [] ∧
      Leaves abits s s.startCommand (atAddress (some ⟨opOf abits o a, a, []⟩)) := by
  have o2 : s.opcode = 2 ↔ o = 2 := h.opcode_iff (by decide)
  have o1 : s.opcode = 1 ↔ o = 1 := h.opcode_iff (by decide)
  have o0 : s.opcode = 0 ↔ o = 0 := h.opcode_iff (by decide)
  have e1 : s.ext = 1 ↔ a / 2 ^ (abits - 2) = 1 := h.ext_iff h2 h8 (by decide)
  have hw := opOf_write_iff h2 h.opcode_lt h.address_lt
  have hidx := h.index h8
  unfold startCommand InCommand
  rw [hidx]
  simp only [o2, o1, o0, e1, ← hw]
  by_cases hread : o = 2
  · rw [if_pos hread, opOf_read_iff.2 hread]
    refine ⟨⟨rfl, hbits, ?_, ?_, rfl⟩, rfl, rfl, rfl, rfl, rfl⟩
    · rw [List.length_nil, Nat.zero_div, Nat.add_zero, Nat.mod_eq_of_lt h.address_lt]
      exact h.address
    · rw [List.length_nil, Nat.zero_div, Nat.add_zero, Nat.mod_eq_of_lt h.address_lt]
      exact (BitVec.shiftLeft_zero _).symm
  · rw [if_neg hread]
    by_cases hwrite : opOf abits o a = .write ∨ opOf abits o a = .writeAll
    · rw [if_pos hwrite]
      have hholds : Holds abits { s with phase := .writing } o a := ⟨h.1, h.2, h.3, h.4, h.5⟩
      obtain hop | hop := hwrite
      · rw [hop]
        exact ⟨⟨rfl, hholds, hbits, hshift, hd⟩, rfl, rfl, rfl, rfl, rfl⟩
      · rw [hop]
        exact ⟨⟨rfl, hholds, hbits, hshift, hd⟩, rfl, rfl, rfl, rfl, rfl⟩
    · rw [if_neg hwrite, commandComplete_eq h h2 h8 (d := []) fun h => absurd h hwrite]
      have hnr : opOf abits o a ≠ .read := fun h => hread (opOf_read_iff.1 h)
      have hat : atAddress (some ⟨opOf abits o a, a, []⟩) = some ⟨opOf abits o a, a, []⟩ := by
        simp [atAddress, not_or.1 hwrite, hnr]
      rw [hat]
      refine ⟨?_, rfl, rfl, rfl, rfl, rfl⟩
      generalize opOf abits o a = op at *
      cases op with
      | read => exact absurd rfl hnr
      | write => exact absurd (.inl rfl) hwrite
      | writeAll => exact absurd (.inr rfl) hwrite
      | erase | eraseAll | enable | disable => exact ⟨rfl, hd⟩

theorem clockIn_lastAddress (h2 : 2 ≤ abits) (h8 : abits ≤ 8) (hr : rest.length + 1 = 2 + abits)
    (hw : s.abits = abits) (h : Tracks abits s (some rest)) (b : Bool) :
    Tracks abits (s.clockIn b) (some (rest ++ [b])) ∧
      Leaves abits s (s.clockIn b) (atAddress (frameOf abits (rest ++ [b]))) := by
  rw [Tracks, if_neg (by omega), if_pos (by omega)] at h
  obtain ⟨hp, hb, ho, hs, hd⟩ := h
  have hshift := shiftIn_eq hs b
  rw [← val_snoc, ← drop_snoc (by omega)] at hshift
  have hlen : (rest ++ [b]).length = 2 + abits := by simp [hr]
  have htake : ((rest ++ [b]).drop 2).take abits = (rest ++ [b]).drop 2 :=
    List.take_of_length_le (by rw [List.length_drop]; omega)
  have hdrop : (rest ++ [b]).drop (2 + abits) = [] := List.drop_of_length_le (by omega)
  rw [clockIn, hp]
  dsimp only
  rw [hb, hshift, hw, if_neg (by omega), Tracks, frameOf, hlen, if_neg (by omega),
    if_neg (by omega), if_neg (by omega), htake, hdrop, setWidth_ofNat (by decide)]
  have holt : val ((rest ++ [b]).take 2) < 4 := by
    exact (val_lt _).trans_le (Nat.pow_le_pow_right (by decide : 0 < 2) (List.length_take_le 2 _))
  have halt : val ((rest ++ [b]).drop 2) < 2 ^ abits := by
    have := val_lt ((rest ++ [b]).drop 2)
    rwa [List.length_drop, hlen, Nat.add_sub_cancel_left] at this
  rw [← take_snoc (by omega) b] at ho
  generalize val ((rest ++ [b]).take 2) = o at *
  generalize val ((rest ++ [b]).drop 2) = a at *
  obtain ⟨htracks, hwidth, hdata, henable, hcs, hsk⟩ := startCommand_spec (s := { s with
      phase := .address, bits := 0, shift := 0, address := BitVec.ofNat 16 a, abits }) h2 h8
    ⟨rfl, ho, rfl, holt, halt⟩ rfl rfl hd
  exact ⟨htracks, hwidth.trans hw.symm, hdata, henable, hcs, hsk⟩

theorem atAddress_snoc {d : List Bool} (b : Bool) (op : Op) (a : Nat) :
    atAddress (some ⟨op, a, d ++ [b]⟩) = none := by
  simp [atAddress]

/-- A data bit of a write. -/
theorem clockIn_writing {d : List Bool} (hp : s.phase = .writing) (hb : s.bits = min d.length 16)
    (hs : s.shift = BitVec.ofNat 32 (val (d.take 16))) (b : Bool) :
    s.clockIn b = { s with
      bits := min (d ++ [b]).length 16
      shift := BitVec.ofNat 32 (val ((d ++ [b]).take 16)) } := by
  have hlen : (d ++ [b]).length = d.length + 1 := by simp
  have hshift := shiftIn_eq hs b
  obtain ⟨data, abits, phase, csPrev, skPrev, dout, writeEnabled, opcode, bits, shift, address,
    outWord⟩ := s
  obtain rfl : phase = .writing := hp
  rw [clockIn]
  dsimp only at hb hs ⊢
  rw [hlen]
  by_cases hlt : d.length < 16
  · rw [List.take_of_length_le (by omega), ← val_snoc] at hshift
    rw [if_pos (by omega), List.take_of_length_le (by omega), hshift, hb]
    congr 1
    omega
  · rw [if_neg (by omega), List.take_append_of_le_length (by omega), ← hs, hb]
    congr 1
    omega

/-- A bit that a read shifts out. -/
theorem clockIn_reading (h8 : abits ≤ 8) {n : Nat} (hw : s.abits = abits) (hp : s.phase = .reading)
    (hb : s.bits = n % 16) (ha : s.address = BitVec.ofNat 16 ((a + n / 16) % 2 ^ abits))
    (ho : s.outWord = s.data ((a + n / 16) % 2 ^ abits) <<< (n % 16)) (b : Bool) :
    s.clockIn b = { s with
      bits := (n + 1) % 16
      address := BitVec.ofNat 16 ((a + (n + 1) / 16) % 2 ^ abits)
      outWord := s.data ((a + (n + 1) / 16) % 2 ^ abits) <<< ((n + 1) % 16)
      dout := stream abits s.data a n } := by
  have h256 := two_pow_le h8
  have hout : s.outWord.msb = stream abits s.data a n := by
    rw [ho, stream, BitVec.msb_shiftLeft]
  obtain ⟨data, abits, phase, csPrev, skPrev, dout, writeEnabled, opcode, bits, shift, address,
    outWord⟩ := s
  obtain rfl : phase = .reading := hp
  subst hw
  rw [clockIn]
  dsimp only [words] at h256 hb ha ho hout ⊢
  rw [hb, hout, Nat.one_shiftLeft]
  by_cases hlast : n % 16 + 1 = 16
  · have hpos : 0 < 2 ^ abits := Nat.two_pow_pos _
    have hmod : (a + n / 16) % 2 ^ abits < 2 ^ abits := Nat.mod_lt _ hpos
    have hmod' : (a + (n + 1) / 16) % 2 ^ abits < 2 ^ abits := Nat.mod_lt _ hpos
    have hnext : (address.toNat + 1) % 2 ^ abits = (a + (n + 1) / 16) % 2 ^ abits := by
      rw [ha, BitVec.toNat_ofNat, Nat.mod_eq_of_lt (show _ < 2 ^ 16 by omega), Nat.mod_add_mod]
      congr 1
      omega
    rw [if_pos hlast, hnext, show (n + 1) % 16 = 0 by omega, BitVec.toNat_ofNat,
      Nat.mod_eq_of_lt (show _ < 2 ^ 16 by omega), BitVec.shiftLeft_zero]
  · rw [if_neg hlast, show (n + 1) / 16 = n / 16 by omega, show (n + 1) % 16 = n % 16 + 1 by omega,
      BitVec.shiftLeft_add, ← ho, ← ha]

/-- A bit after the address. -/
theorem clockIn_inCommand (h8 : abits ≤ 8) {d : List Bool} (hw : s.abits = abits)
    (h : InCommand abits s o a d) (b : Bool) :
    InCommand abits (s.clockIn b) o a (d ++ [b]) ∧ Leaves abits s (s.clockIn b) none := by
  have hlen : (d ++ [b]).length = d.length + 1 := by simp
  have writes (h : s.phase = .writing ∧ Holds abits s o a ∧ s.bits = min d.length 16 ∧
      s.shift = BitVec.ofNat 32 (val (d.take 16)) ∧ s.dout = true) :
      ((s.clockIn b).phase = .writing ∧ Holds abits (s.clockIn b) o a ∧
        (s.clockIn b).bits = min (d ++ [b]).length 16 ∧
        (s.clockIn b).shift = BitVec.ofNat 32 (val ((d ++ [b]).take 16)) ∧
        (s.clockIn b).dout = true) ∧ Leaves abits s (s.clockIn b) none := by
    obtain ⟨hp, hh, hb, hs, hd⟩ := h
    rw [clockIn_writing hp hb hs b]
    exact ⟨⟨hp, ⟨hh.1, hh.2, hh.3, hh.4, hh.5⟩, rfl, rfl, hd⟩, rfl, rfl, rfl, rfl, rfl⟩
  unfold InCommand at *
  generalize hop : opOf abits o a = op at *
  cases op with
  | read =>
    obtain ⟨hp, hb, ha, ho, -⟩ := h
    dsimp only
    rw [clockIn_reading h8 hw hp hb ha ho b, hlen, if_neg (Nat.succ_ne_zero _)]
    exact ⟨⟨hp, rfl, rfl, rfl, rfl⟩, rfl, rfl, rfl, rfl, rfl⟩
  | write => exact writes h
  | writeAll => exact writes h
  | erase | eraseAll | enable | disable =>
    obtain ⟨hp, hd⟩ := h
    rw [clockIn, hp]
    exact ⟨⟨hp, hd⟩, rfl, rfl, rfl, rfl, rfl⟩

theorem clockIn_command (h8 : abits ≤ 8) (hr : 2 + abits ≤ rest.length) (hw : s.abits = abits)
    (h : Tracks abits s (some rest)) (b : Bool) :
    Tracks abits (s.clockIn b) (some (rest ++ [b])) ∧ Leaves abits s (s.clockIn b) none := by
  rw [Tracks, if_neg (by omega), if_neg (by omega)] at h
  have hlen : (rest ++ [b]).length = rest.length + 1 := by simp
  rw [Tracks, hlen, if_neg (by omega), if_neg (by omega), take_snoc (by omega),
    drop_snoc (by omega), List.take_append_of_le_length (by rw [List.length_drop]; omega),
    List.drop_append_of_le_length hr]
  exact clockIn_inCommand h8 hw h b

/-- What follows the start bit, with one more bit. -/
def next (b : Bool) : Option (List Bool) → Option (List Bool)
  | none => if b then some [] else none
  | some rest => some (rest ++ [b])

/-- A rising clock of a selected chip. -/
theorem clockIn_spec (h2 : 2 ≤ abits) (h8 : abits ≤ 8) (hw : s.abits = abits)
    {bits : Option (List Bool)} (h : Tracks abits s bits) (b : Bool) :
    Tracks abits (s.clockIn b) (next b bits) ∧
      Leaves abits s (s.clockIn b) (atAddress ((next b bits).bind (frameOf abits))) := by
  cases bits with
  | none =>
    have hnone : atAddress ((next b none).bind (frameOf abits)) = none := by
      cases b <;> simp [next, frameOf, atAddress]
    rw [hnone]
    exact clockIn_none h b
  | some rest =>
    have hlen : (rest ++ [b]).length = rest.length + 1 := by simp
    have hshort (hlt : rest.length + 1 < 2 + abits) :
        atAddress (frameOf abits (rest ++ [b])) = none := by
      rw [frameOf, hlen, if_pos hlt]
      rfl
    show Tracks abits _ (some (rest ++ [b])) ∧
      Leaves abits s _ (atAddress (frameOf abits (rest ++ [b])))
    by_cases hop : rest.length < 2
    · rw [hshort (by omega)]
      exact clockIn_opcode h2 hop h b
    · by_cases hlt : rest.length + 1 < 2 + abits
      · rw [hshort hlt]
        exact clockIn_address (by omega) hlt hw h b
      · by_cases hlast : rest.length + 1 = 2 + abits
        · exact clockIn_lastAddress h2 h8 hlast hw h b
        · have hdata : atAddress (frameOf abits (rest ++ [b])) = none := by
            rw [frameOf, hlen, if_neg hlt,
              @List.drop_append_of_le_length _ rest [b] (2 + abits) (by omega)]
            exact atAddress_snoc b _ _
          rw [hdata]
          exact clockIn_command h8 (by omega) hw h b

/-- The command complete as chip select falls. -/
def atDeselect (f : Option Frame) : Option Frame :=
  f.filter fun f => (f.op = .write || f.op = .writeAll) && 16 ≤ f.data.length

theorem leaves_self (abits : Nat) (s : Eeprom93cx6) : Leaves abits s s none :=
  ⟨rfl, rfl, rfl, rfl, rfl⟩

/-- A complete write, and one that breaks off, as chip select falls. -/
theorem deselect_writing (h2 : 2 ≤ abits) (h8 : abits ≤ 8) {d : List Bool}
    (hp : s.phase = .writing) (hh : Holds abits s o a) (hb : s.bits = min d.length 16)
    (hs : s.shift = BitVec.ofNat 32 (val (d.take 16)))
    (hop : opOf abits o a = .write ∨ opOf abits o a = .writeAll) :
    Leaves abits s (if s.phase = .writing ∧ s.bits = 16 then s.commandComplete else s)
      (atDeselect (some ⟨opOf abits o a, a, d⟩)) := by
  by_cases hlen : 16 ≤ d.length
  · have hat : atDeselect (some ⟨opOf abits o a, a, d⟩) = some ⟨opOf abits o a, a, d⟩ := by
      simp [atDeselect, hlen, hop]
    rw [if_pos ⟨hp, by omega⟩, hat, commandComplete_eq hh h2 h8 (d := d) fun _ => by
      rw [hs, setWidth_ofNat (by decide)]]
    exact ⟨rfl, rfl, rfl, rfl, rfl⟩
  · have hat : atDeselect (some ⟨opOf abits o a, a, d⟩) = none := by
      simp [atDeselect, Nat.lt_of_not_le hlen]
    rw [if_neg fun h => by omega, hat]
    exact leaves_self abits s

/-- Chip select falling on a selected chip. -/
theorem deselect_spec (h2 : 2 ≤ abits) (h8 : abits ≤ 8) {bits : Option (List Bool)}
    (h : Tracks abits s bits) :
    Leaves abits s (if s.phase = .writing ∧ s.bits = 16 then s.commandComplete else s)
      (atDeselect (bits.bind (frameOf abits))) := by
  have other (hp : s.phase ≠ .writing) :
      Leaves abits s (if s.phase = .writing ∧ s.bits = 16 then s.commandComplete else s) none := by
    rw [if_neg fun hc => hp hc.1]
    exact leaves_self abits s
  cases bits with
  | none => exact other (by rw [h.1]; decide)
  | some rest =>
    show Leaves abits s _ (atDeselect (frameOf abits rest))
    by_cases hop : rest.length < 2
    · rw [Tracks, if_pos hop] at h
      have hnone : frameOf abits rest = none := if_pos (by omega)
      rw [hnone]
      exact other (by rw [h.1]; decide)
    by_cases hlt : rest.length < 2 + abits
    · rw [Tracks, if_neg hop, if_pos hlt] at h
      have hnone : frameOf abits rest = none := if_pos hlt
      rw [hnone]
      exact other (by rw [h.1]; decide)
    rw [Tracks, if_neg hop, if_neg hlt] at h
    have hsome : frameOf abits rest = some ⟨_, _, _⟩ := if_neg hlt
    rw [hsome]
    generalize val (rest.take 2) = o at *
    generalize val ((rest.drop 2).take abits) = a at *
    generalize rest.drop (2 + abits) = d at *
    unfold InCommand at h
    cases hop : opOf abits o a with
    | read =>
      rw [hop] at h
      exact other (by rw [h.1]; decide)
    | write =>
      rw [hop] at h
      rw [← hop]
      exact deselect_writing h2 h8 h.1 h.2.1 h.2.2.1 h.2.2.2.1 (.inl hop)
    | writeAll =>
      rw [hop] at h
      rw [← hop]
      exact deselect_writing h2 h8 h.1 h.2.1 h.2.2.1 h.2.2.2.1 (.inr hop)
    | erase | eraseAll | enable | disable =>
      rw [hop] at h
      exact other (by rw [h.1]; decide)

/-- What the chip holds has nothing to do with the last pins. -/
theorem Tracks.pins {bits : Option (List Bool)} (h : Tracks abits s bits) (cs sk : Bool) :
    Tracks abits { s with csPrev := cs, skPrev := sk } bits := by
  cases bits with
  | none => exact h
  | some rest =>
    by_cases hop : rest.length < 2
    · rw [Tracks, if_pos hop] at h ⊢
      exact h
    by_cases hlt : rest.length < 2 + abits
    · rw [Tracks, if_neg hop, if_pos hlt] at h ⊢
      exact h
    rw [Tracks, if_neg hop, if_neg hlt] at h ⊢
    unfold InCommand at h ⊢
    have holds {o a : Nat} (h : Holds abits s o a) :
        Holds abits { s with csPrev := cs, skPrev := sk } o a :=
      ⟨h.width, h.opcode, h.address, h.opcode_lt, h.address_lt⟩
    cases hop : opOf abits (val (rest.take 2)) (val ((rest.drop 2).take abits)) with
    | read | erase | eraseAll | enable | disable =>
      rw [hop] at h
      exact h
    | write | writeAll =>
      rw [hop] at h
      exact ⟨h.1, holds h.2.1, h.2.2⟩

/-- The chip after a history of its pins. -/
structure Inv (abits : Nat) (past : List Pins) (s : Eeprom93cx6) : Prop where
  width : s.abits = abits
  sk : s.skPrev = lastSk past
  cs : s.csPrev = lastCs past
  enable : s.writeEnabled = enabled abits past
  low : lastCs past = false → s.phase = .idle ∧ s.dout = true
  high : lastCs past = true → Tracks abits s (body (clocked past))

theorem inv_init (data : Nat → BitVec 16) (abits : Nat) : Inv abits [] (init data abits) :=
  ⟨rfl, rfl, rfl, rfl, fun _ => ⟨rfl, rfl⟩, fun h => nomatch h⟩

theorem clocked_low {past : List Pins} (h : lastCs past = false) : clocked past = [] := by
  cases past with
  | nil => rfl
  | cons p past =>
    have hp : p.cs = false := by simpa [lastCs] using h
    simp [clocked, hp]

/-- The chip as the rest of `set_pins` sees it when chip select is high. -/
def select (s : Eeprom93cx6) (sk : Bool) : Eeprom93cx6 :=
  if s.csPrev then { s with skPrev := sk }
  else { s with skPrev := sk, csPrev := true, phase := .start }

theorem select_spec {past : List Pins} (h : Inv abits past s) (sk : Bool) :
    Tracks abits (s.select sk) (body (clocked past)) ∧ (s.select sk).abits = abits ∧
      (s.select sk).csPrev = true ∧ (s.select sk).skPrev = sk ∧
      (s.select sk).writeEnabled = s.writeEnabled ∧ (s.select sk).data = s.data := by
  have hcs := h.cs
  cases hlast : lastCs past with
  | false =>
    rw [hlast] at hcs
    rw [select, hcs, clocked_low hlast]
    exact ⟨⟨rfl, (h.low hlast).2⟩, h.width, rfl, rfl, rfl, rfl⟩
  | true =>
    rw [hlast] at hcs
    rw [select, if_pos hcs]
    exact ⟨(h.high hlast).pins s.csPrev sk, h.width, hcs, rfl, rfl, rfl⟩

theorem setPins_high {p : Pins} (hp : p.cs = true) : s.setPins p =
    if p.sk && !s.skPrev then (s.select p.sk).clockIn p.di else s.select p.sk := by
  rw [setPins, hp]
  rfl

/-- The chip as chip select falls, before it goes idle. -/
def deselect (s : Eeprom93cx6) : Eeprom93cx6 :=
  if s.csPrev && s.phase = .writing && s.bits = 16 then s.commandComplete else s

theorem setPins_low {p : Pins} (hp : p.cs = false) : s.setPins p =
    { deselect { s with skPrev := p.sk } with csPrev := false, phase := .idle, dout := true } := by
  rw [setPins, hp]
  rfl

/-- Chip select low, whether or not it was high before. -/
theorem deselect_leaves (h2 : 2 ≤ abits) (h8 : abits ≤ 8) {past : List Pins} (h : Inv abits past s)
    {p : Pins} (hp : p.cs = false) :
    Leaves abits { s with skPrev := p.sk } (deselect { s with skPrev := p.sk })
      (completed abits past p) := by
  have hcomp : completed abits past p = atDeselect (frame abits (clocked past)) := by
    rw [completed, hp]
    rfl
  have hcs := h.cs
  rw [hcomp, deselect]
  cases hlast : lastCs past with
  | false =>
    rw [hlast] at hcs
    dsimp only
    rw [hcs, clocked_low hlast]
    exact leaves_self abits _
  | true =>
    rw [hlast] at hcs
    have hspec := deselect_spec h2 h8 ((h.high hlast).pins s.csPrev p.sk)
    rw [frame_eq]
    dsimp only at hspec ⊢
    simpa only [hcs, Bool.true_and, Bool.and_eq_true, decide_eq_true_eq] using hspec

/-- **Every call of `set_pins`** keeps what the chip holds, and changes the words as the command
that the pins complete asks. -/
theorem setPins_spec (h2 : 2 ≤ abits) (h8 : abits ≤ 8) {past : List Pins} (h : Inv abits past s)
    (p : Pins) : Inv abits (p :: past) (s.setPins p) ∧
      (s.setPins p).data =
        wordsAfter abits (enabled abits past) s.data (completed abits past p) := by
  have henabled := enabled_cons abits p past
  have hlastCs : lastCs (p :: past) = p.cs := by simp [lastCs]
  have hlastSk : lastSk (p :: past) = p.sk := by simp [lastSk]
  cases hp : p.cs with
  | false =>
    obtain ⟨hwidth, hdata, henable, -, hsk⟩ := deselect_leaves h2 h8 h hp
    rw [setPins_low hp]
    dsimp only at hwidth hdata henable hsk
    rw [← h.enable] at henabled ⊢
    refine ⟨⟨hwidth.trans h.width, hsk.trans hlastSk.symm, (hlastCs.trans hp).symm,
      henable.trans henabled.symm, fun _ => ⟨rfl, rfl⟩, fun hc => ?_⟩, hdata⟩
    rw [hlastCs, hp] at hc
    nomatch hc
  | true =>
    obtain ⟨htracks, hwidth, hcs, hsk, henable, hdata⟩ := select_spec h p.sk
    rw [setPins_high hp, h.sk]
    have hlow (hc : lastCs (p :: past) = false) : False := by
      rw [hlastCs, hp] at hc
      nomatch hc
    cases hrise : p.sk && !lastSk past with
    | false =>
      have hcomp : completed abits past p = none := by
        rw [completed, hp, hrise]
        rfl
      have hclocked : clocked (p :: past) = clocked past := by
        rw [clocked, hp, hrise]
        rfl
      rw [hcomp] at henabled ⊢
      refine ⟨⟨hwidth, hsk.trans hlastSk.symm, hcs.trans (hlastCs.trans hp).symm,
        (henable.trans h.enable).trans henabled.symm, fun hc => (hlow hc).elim, fun _ => ?_⟩, hdata⟩
      rw [hclocked]
      exact htracks
    | true =>
      have hclocked : clocked (p :: past) = clocked past ++ [p.di] := by
        rw [clocked, hp, hrise]
        rfl
      have hbody : body (clocked (p :: past)) = next p.di (body (clocked past)) := by
        rw [hclocked, body_snoc]
        cases body (clocked past) <;> rfl
      have hcomp : completed abits past p =
          atAddress ((next p.di (body (clocked past))).bind (frameOf abits)) := by
        rw [← hbody, ← frame_eq, completed, hp, hrise]
        rfl
      obtain ⟨hnext, hleaves⟩ := clockIn_spec h2 h8 hwidth htracks p.di
      rw [← hcomp] at hleaves
      obtain ⟨hwidth', hdata', henable', hcs', hsk'⟩ := hleaves
      rw [henable, h.enable] at hdata' henable'
      rw [hdata] at hdata'
      refine ⟨⟨hwidth'.trans hwidth, (hsk'.trans hsk).trans hlastSk.symm,
        (hcs'.trans hcs).trans (hlastCs.trans hp).symm, henable'.trans henabled.symm,
        fun hc => (hlow hc).elim, fun _ => ?_⟩, hdata'⟩
      rw [hbody]
      exact hnext

theorem inv_after (h2 : 2 ≤ abits) (h8 : abits ≤ 8) (data : Nat → BitVec 16) (past : List Pins) :
    Inv abits past (after data abits past) := by
  induction past with
  | nil => exact inv_init data abits
  | cons p past ih => exact (setPins_spec h2 h8 ih p).1

/-! ## Data out -/

theorem Tracks.out {bits : List Bool} (h : Tracks abits s (body bits)) :
    s.dout = output abits s.data bits := by
  rw [output, frame_eq]
  cases hbody : body bits with
  | none =>
    rw [hbody] at h
    exact h.2
  | some rest =>
    rw [hbody, Tracks] at h
    rw [Option.bind_some]
    by_cases hop : rest.length < 2
    · rw [if_pos hop] at h
      have hnone : frameOf abits rest = none := if_pos (by omega)
      rw [hnone]
      exact h.2.2.2
    rw [if_neg hop] at h
    by_cases hlt : rest.length < 2 + abits
    · rw [if_pos hlt] at h
      have hnone : frameOf abits rest = none := if_pos hlt
      rw [hnone]
      exact h.2.2.2.2
    rw [if_neg hlt] at h
    have hsome : frameOf abits rest = some ⟨_, _, _⟩ := if_neg hlt
    rw [hsome]
    generalize val (rest.take 2) = o at *
    generalize val ((rest.drop 2).take abits) = a at *
    generalize rest.drop (2 + abits) = d at *
    unfold InCommand at h
    cases hop : opOf abits o a with
    | read =>
      rw [hop] at h
      obtain ⟨-, -, -, -, hd⟩ := h
      cases d with
      | nil => exact hd
      | cons b more => exact hd
    | write | writeAll =>
      rw [hop] at h
      exact h.2.2.2.2
    | erase | eraseAll | enable | disable =>
      rw [hop] at h
      exact h.2

theorem Inv.out {past : List Pins} (h : Inv abits past s) :
    s.dout = output abits s.data (clocked past) := by
  cases hlast : lastCs past with
  | false =>
    rw [clocked_low hlast]
    exact (h.low hlast).2
  | true => exact (h.high hlast).out

/-- **The EEPROM keeps to its protocol.** Whatever history of its pins: the words change when, and
only when, a command is complete and the enable is on, as the command asks; and data out is the
dummy 0 and the words' bits in a read, 1 otherwise. -/
theorem eeprom_follows_protocol {abits : Nat} (h2 : 2 ≤ abits) (h8 : abits ≤ 8)
    (data : Nat → BitVec 16) (past : List Pins) (p : Pins) :
    (after data abits []).data = data ∧
      (after data abits (p :: past)).data = wordsAfter abits (enabled abits past)
        (after data abits past).data (completed abits past p) ∧
      (after data abits (p :: past)).dout =
        output abits (after data abits (p :: past)).data (clocked (p :: past)) :=
  ⟨rfl, (setPins_spec h2 h8 (inv_after h2 h8 data past) p).2,
    (inv_after h2 h8 data (p :: past)).out⟩

/-- Pins that clock bits in and let chip select fall, the last ones first. -/
def transaction (bits : List Bool) : List Pins :=
  ⟨false, false, false⟩ :: bits.reverse.flatMap fun b => [⟨true, true, b⟩, ⟨true, false, b⟩]

theorem eeprom_follows_protocol_write :
    let enable := [true, false, false, true, true, false, false, false, false]
    let write := [true, false, true, false, false, false, true, false, true]
    let word := List.replicate 4 true ++ List.replicate 12 false
    (after (fun _ => 0) 6 (transaction (write ++ word) ++ transaction enable)).data 5 = 0xf000 := by
  intro enable write word
  have hdata := (eeprom_follows_protocol (by decide : 2 ≤ 6) (by decide) (fun _ => 0)
    ((transaction (write ++ word)).tail ++ transaction enable) ⟨false, false, false⟩).2.1
  have hon : enabled 6 ((transaction (write ++ word)).tail ++ transaction enable) = true := by
    decide +kernel
  have hcomp : completed 6 ((transaction (write ++ word)).tail ++ transaction enable)
      ⟨false, false, false⟩ = some ⟨.write, 5, word⟩ := by
    decide +kernel
  rw [hon, hcomp] at hdata
  have hword : BitVec.ofNat 16 (val (word.take 16)) = 0xf000 := by decide +kernel
  have hsplit : transaction (write ++ word) ++ transaction enable = ⟨false, false, false⟩ ::
      ((transaction (write ++ word)).tail ++ transaction enable) := rfl
  rw [hsplit, hdata, wordsAfter, if_pos rfl, Frame.apply, hword]
  exact Function.update_self _ _ _

end Eeprom93cx6

end Alphabox.Pci
