import Alphabox.Lib.Numerals
import Mathlib.Algebra.Group.Nat.Defs
import Mathlib.Logic.Function.Basic
import Mathlib.Data.Nat.Notation

/-!
# A serial EEPROM (`devices/common/Eeprom93cx6.cpp`)

The 93C46 and 93C66 on their wire: chip select, clock and data in, set together by `set_pins`. A
command is a start bit, two bits of opcode and the address, most significant bit first; data
follows for a write, and comes out for a read. All fields go through one shift register.
-/

namespace Alphabox.Pci

/-- The pins, as `set_pins` is given them. -/
structure Pins where
  cs : Bool
  sk : Bool
  di : Bool
  deriving DecidableEq

/-- `phase_t`. -/
inductive EepromPhase where
  | idle | start | opcode | address | reading | writing
  deriving DecidableEq

/-- `CEeprom93cx6`; the words are those below `1 << abits`. -/
structure Eeprom93cx6 where
  data : Nat → BitVec 16
  abits : Nat
  phase : EepromPhase
  csPrev : Bool
  skPrev : Bool
  dout : Bool
  writeEnabled : Bool
  opcode : BitVec 8
  bits : Nat
  shift : BitVec 32
  address : BitVec 16
  outWord : BitVec 16

namespace Eeprom93cx6

variable (s : Eeprom93cx6)

/-- `init`, which leaves the words alone. -/
def init (data : Nat → BitVec 16) (addressBits : Nat) : Eeprom93cx6 where
  data
  abits := addressBits
  phase := .idle
  csPrev := false
  skPrev := false
  dout := true
  writeEnabled := false
  opcode := 0
  bits := 0
  shift := 0
  address := 0
  outWord := 0

/-- `1 << abits`. -/
def words : Nat := 1 <<< s.abits

/-- `address >> (abits - 2)`. -/
def ext : BitVec 16 := s.address >>> (s.abits - 2)

/-- `command_complete`. -/
def commandComplete : Eeprom93cx6 :=
  if s.opcode = 0 then
    if s.ext = 3 then { s with writeEnabled := true }
    else if s.ext = 0 then { s with writeEnabled := false }
    else if s.writeEnabled then
      { s with data := fun i =>
          if i < s.words then (if s.ext = 2 then 0xffff else s.shift.setWidth 16) else s.data i }
    else s
  else if s.opcode = 1 then
    if s.writeEnabled then
      { s with data := Function.update s.data (s.address.toNat % s.words) (s.shift.setWidth 16) }
    else s
  else if s.opcode = 3 then
    if s.writeEnabled then
      { s with data := Function.update s.data (s.address.toNat % s.words) 0xffff }
    else s
  else s

/-- `shift << 1 | di`. -/
def shiftIn (di : Bool) : BitVec 32 := s.shift <<< 1 ||| if di then 1 else 0

/-- The last bit of the address has come in. -/
def startCommand : Eeprom93cx6 :=
  if s.opcode = 2 then
    { s with phase := .reading, outWord := s.data (s.address.toNat % s.words), dout := false }
  else if s.opcode = 1 ∨ (s.opcode = 0 ∧ s.ext = 1) then { s with phase := .writing }
  else { s.commandComplete with phase := .idle }

/-- A rising clock with the chip selected: the `switch` over the phases. -/
def clockIn (di : Bool) : Eeprom93cx6 :=
  match s.phase with
  | .start =>
    if di then { s with phase := .opcode, bits := 0, shift := 0 } else s
  | .opcode =>
    let s := { s with shift := s.shiftIn di, bits := s.bits + 1 }
    if s.bits = 2 then
      { s with opcode := s.shift.setWidth 8, phase := .address, bits := 0, shift := 0 }
    else s
  | .address =>
    let s := { s with shift := s.shiftIn di, bits := s.bits + 1 }
    if s.bits < s.abits then s
    else startCommand { s with address := s.shift.setWidth 16, bits := 0, shift := 0 }
  | .reading =>
    let s := { s with dout := s.outWord.msb, outWord := s.outWord <<< 1, bits := s.bits + 1 }
    if s.bits = 16 then
      let address := BitVec.ofNat 16 ((s.address.toNat + 1) % s.words)
      { s with bits := 0, address, outWord := s.data address.toNat }
    else s
  | .writing =>
    if s.bits < 16 then { s with shift := s.shiftIn di, bits := s.bits + 1 } else s
  | .idle => s

/-- `set_pins`. -/
def setPins (p : Pins) : Eeprom93cx6 :=
  let rising := p.sk && !s.skPrev
  let s := { s with skPrev := p.sk }
  if !p.cs then
    let s := if s.csPrev && s.phase = .writing && s.bits = 16 then s.commandComplete else s
    { s with csPrev := false, phase := .idle, dout := true }
  else
    let s := if s.csPrev then s else { s with csPrev := true, phase := .start }
    if rising then s.clockIn p.di else s

/-- The chip after a history of its pins, the last one first. -/
def after (data : Nat → BitVec 16) (addressBits : Nat) : List Pins → Eeprom93cx6
  | [] => init data addressBits
  | p :: past => (after data addressBits past).setPins p

end Eeprom93cx6

/-! ## The wire protocol -/

namespace Microwire

/-- A number from its bits, the most significant first. -/
def val (bits : List Bool) : Nat := bits.foldl (fun n b => 2 * n + b.toNat) 0

/-- The clock as it was before. -/
def lastSk (past : List Pins) : Bool := past.head?.any (·.sk)

/-- Chip select as it was before. -/
def lastCs (past : List Pins) : Bool := past.head?.any (·.cs)

/-- The bits clocked in since chip select rose, in a history with the last pins first. -/
def clocked : List Pins → List Bool
  | [] => []
  | p :: past =>
    if !p.cs then [] else if p.sk && !lastSk past then clocked past ++ [p.di] else clocked past

/-- What a command asks for. -/
inductive Op where
  | read | write | writeAll | erase | eraseAll | enable | disable
  deriving DecidableEq

/-- A command whose address is in, and the data bits after it. -/
structure Frame where
  op : Op
  address : Nat
  data : List Bool
  deriving DecidableEq

/-- The opcodes, and the top two bits of the address under opcode 00. -/
def opOf (abits opcode address : Nat) : Op :=
  let ext := address / 2 ^ (abits - 2)
  if opcode = 2 then .read
  else if opcode = 1 then .write
  else if opcode = 3 then .erase
  else if ext = 3 then .enable
  else if ext = 2 then .eraseAll
  else if ext = 1 then .writeAll
  else .disable

/-- The bits that follow the start bit, the first 1. -/
def body (bits : List Bool) : Option (List Bool) :=
  match bits.dropWhile (!·) with
  | [] => none
  | _ :: rest => some rest

/-- The command that the bits hold: two of opcode, the address, and the data. -/
def frame (abits : Nat) (bits : List Bool) : Option Frame := do
  let rest ← body bits
  if rest.length < 2 + abits then none
  else
    let address := val ((rest.drop 2).take abits)
    some ⟨opOf abits (val (rest.take 2)) address, address, rest.drop (2 + abits)⟩

/-- The command that new pins complete: a write with 16 data bits as chip select falls, and one
that neither writes nor reads with the last bit of its address. -/
def completed (abits : Nat) (past : List Pins) (p : Pins) : Option Frame :=
  if !p.cs then
    (frame abits (clocked past)).filter fun f =>
      (f.op = .write || f.op = .writeAll) && 16 ≤ f.data.length
  else if p.sk && !lastSk past then
    (frame abits (clocked (p :: past))).filter fun f =>
      !(f.op = .write || f.op = .writeAll || f.op = .read) && f.data.isEmpty
  else none

/-- The last complete enable or disable command was an enable. -/
def enabled (abits : Nat) : List Pins → Bool
  | [] => false
  | p :: past =>
    match completed abits past p with
    | some ⟨.enable, _, _⟩ => true
    | some ⟨.disable, _, _⟩ => false
    | _ => enabled abits past

/-- What a complete command does to the words. -/
def Frame.apply (abits : Nat) (f : Frame) (data : Nat → BitVec 16) : Nat → BitVec 16 :=
  let word := BitVec.ofNat 16 (val (f.data.take 16))
  match f.op with
  | .write => Function.update data f.address word
  | .writeAll => fun i => if i < 2 ^ abits then word else data i
  | .erase => Function.update data f.address 0xffff
  | .eraseAll => fun i => if i < 2 ^ abits then 0xffff else data i
  | _ => data

/-- What the pins leave of the words: a command does what it asks for while the enable is on. -/
def wordsAfter (abits : Nat) (on : Bool) (data : Nat → BitVec 16) : Option Frame → Nat → BitVec 16
  | some f => if on then f.apply abits data else data
  | none => data

/-- The bits that a read shifts out: the words from its address on, again from 0 after the last. -/
def stream (abits : Nat) (data : Nat → BitVec 16) (address k : Nat) : Bool :=
  (data ((address + k / 16) % 2 ^ abits)).getMsbD (k % 16)

/-- Data out: in a read the dummy 0, then the bits of the words; else 1. -/
def output (abits : Nat) (data : Nat → BitVec 16) (bits : List Bool) : Bool :=
  match frame abits bits with
  | some ⟨.read, _, []⟩ => false
  | some ⟨.read, address, _ :: more⟩ => stream abits data address more.length
  | _ => true

end Microwire

end Alphabox.Pci
