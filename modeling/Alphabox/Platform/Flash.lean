import Alphabox.Lib.Reach
import Mathlib.Data.BitVec
import Mathlib.Logic.Function.Basic

/-!
# The firmware flash (`platforms/es40/Flash.cpp`)

One to several AM29F016 parts, one after the other: their command states, the guest's accesses, the
dirty flag, and the flash file with its temporary one as `save_file` replaces it. An access and a
state restore are one step each; a flush is a step for the flag, for the file's opening, for every
byte and for its end, and any number of threads may flush.
-/

namespace Alphabox.Platform

def CHIP_SIZE : Nat := 2 * 1024 * 1024

inductive FlashMode where
  | read | step1 | step2 | autosel | program | eraseStep3 | eraseStep4 | eraseStep5
  | confirm0 | confirm1
  deriving DecidableEq

/-- `CFlash`: `m_flash` holds `m_chips * CHIP_SIZE` bytes, and the flash file is another thing. -/
structure CFlash where
  chips : Nat
  flash : Nat → BitVec 8
  mode : Nat → FlashMode
  dirty : Bool

namespace CFlash

variable (s : CFlash)

/-- `m_flash.size()`. -/
def size : Nat := CHIP_SIZE * s.chips

/-- `(int)(address >> 6)`, as the range check sees it. -/
def byteOf (address : BitVec 64) : Nat := (address >>> 6).toNat % 2 ^ 32

def setMode (a : Nat) (m : FlashMode) : CFlash :=
  { s with mode := Function.update s.mode (a / CHIP_SIZE) m }

/-- What `ReadMem` returns. -/
def readMem (address : BitVec 64) : BitVec 64 :=
  let a := byteOf address
  if ¬ a < s.size then 0xff
  else if address &&& 4 ≠ 0 then 0
  else
    match s.mode (a / CHIP_SIZE) with
    | .autosel => if a % 0x100 = 0 then 1 else if a % 0x100 = 1 then 0xad else 0
    | .confirm0 | .confirm1 => 0x80
    | _ => (s.flash a).setWidth 64

/-- What `ReadMem` leaves. -/
def afterRead (address : BitVec 64) : CFlash :=
  let a := byteOf address
  if ¬ a < s.size then s
  else if address &&& 4 ≠ 0 then s
  else
    match s.mode (a / CHIP_SIZE) with
    | .confirm0 => s.setMode a .read
    | .confirm1 => s.setMode a .confirm0
    | _ => s

/-- `memset` to 0xff of an erase, and the flag. -/
def erase (start n : Nat) : CFlash :=
  { s with flash := fun i => if start ≤ i ∧ i < start + n then 0xff else s.flash i, dirty := true }

/-- A cycle of a command sequence: another mode at one address with one byte, else back to reading;
0xF0 and 0xFF give the sequence up. -/
def cycle (a : Nat) (byte : BitVec 8) (at' : Nat) (with' : BitVec 8) (m : FlashMode) : CFlash :=
  if byte = 0xf0 ∨ byte = 0xff then s.setMode a .read
  else if a % 0x800 = at' ∧ byte = with' then s.setMode a m
  else s.setMode a .read

/-- `WriteMem`. -/
def writeMem (address data : BitVec 64) : CFlash :=
  let a := byteOf address
  if ¬ a < s.size then s
  else if address &&& 4 ≠ 0 then s
  else
    let byte := data.setWidth 8
    match s.mode (a / CHIP_SIZE) with
    | .program =>
      let newv := s.flash a &&& byte
      let s := if newv ≠ s.flash a then
          { s with flash := Function.update s.flash a newv, dirty := true }
        else s
      s.setMode a .read
    | .read | .autosel | .confirm0 | .confirm1 => s.cycle a byte 0x555 0xaa .step1
    | .step1 => s.cycle a byte 0x2aa 0x55 .step2
    | .step2 =>
      if byte = 0xf0 ∨ byte = 0xff then s.setMode a .read
      else if a % 0x800 ≠ 0x555 then s.setMode a .read
      else if byte = 0x90 then s.setMode a .autosel
      else if byte = 0xa0 then s.setMode a .program
      else if byte = 0x80 then s.setMode a .eraseStep3
      else s.setMode a .read
    | .eraseStep3 => s.cycle a byte 0x555 0xaa .eraseStep4
    | .eraseStep4 => s.cycle a byte 0x2aa 0x55 .eraseStep5
    | .eraseStep5 =>
      if byte = 0xf0 ∨ byte = 0xff then s.setMode a .read
      else if a % 0x800 = 0x555 ∧ byte = 0x10 then
        (s.erase (CHIP_SIZE * (a / CHIP_SIZE)) CHIP_SIZE).setMode a .confirm1
      else if byte = 0x30 then (s.erase (a - a % 0x10000) 0x10000).setMode a .confirm1
      else s.setMode a .read

/-- What `RestoreState` leaves, from the bytes that are left of the state file: those that there
are. -/
def restored (image : List (BitVec 8)) : CFlash :=
  { s with flash := fun i => if i < s.size then image.getD i (s.flash i) else s.flash i }

/-- `RestoreState`, which fails where they are too few. -/
def restoreState (image : List (BitVec 8)) : CFlash × Bool :=
  (s.restored image, s.size ≤ image.length)

end CFlash

/-! ## The flash file -/

/-- The contents of a file. -/
structure FlashImage where
  length : Nat
  byte : Nat → BitVec 8

/-- The directory entries of `fn` and `fn.tmp`, and the files there are. -/
structure FlashFiles where
  file : Nat
  tmp : Option Nat
  image : Nat → FlashImage
  fresh : Nat

/-- Where a thread is in `FlushIfDirty`: not in it, the flag taken, or with `i` bytes written to the
temporary file that it opened. -/
inductive SavePc where
  | out
  | begun
  | writing (file i : Nat)
  deriving DecidableEq

/-- The device, its file, and the threads that flush it. -/
structure FlashRun (T : Type) where
  dev : CFlash
  files : FlashFiles
  pc : T → SavePc

inductive FlashAct (T : Type) where
  | read (address : BitVec 64)
  | write (address data : BitVec 64)
  | restore (image : List (BitVec 8))
  | flush (t : T)
  | openTmp (t : T) (ok : Bool)
  | copy (t : T)
  | finish (t : T) (ok : Bool)

namespace FlashRun

variable {T : Type} [DecidableEq T] (s : FlashRun T)

def goto (t : T) (pc : SavePc) : FlashRun T := { s with pc := Function.update s.pc t pc }

/-- `fopen(tmp, "wb")`. -/
def create (f : FlashFiles) : Nat × FlashFiles :=
  match f.tmp with
  | some o => (o, { f with image := Function.update f.image o ⟨0, fun _ => 0⟩ })
  | none => (f.fresh, { f with
      tmp := some f.fresh
      image := Function.update f.image f.fresh ⟨0, fun _ => 0⟩
      fresh := f.fresh + 1 })

/-- A byte of `fwrite`, at the writer's own place. -/
def put (f : FlashFiles) (o i : Nat) (b : BitVec 8) : FlashFiles :=
  let image := f.image o
  { f with
    image := Function.update f.image o
      ⟨max image.length (i + 1), Function.update image.byte i b⟩ }

/-- `rename`, where the new contents are complete and there is a temporary file; else `remove`. -/
def replace (f : FlashFiles) (ok : Bool) : FlashFiles :=
  match ok, f.tmp with
  | true, some o => { f with file := o, tmp := none }
  | _, _ => { f with tmp := none }

/-- One step; nothing where the thread cannot take it. -/
def step : FlashAct T → FlashRun T
  | .read address => { s with dev := s.dev.afterRead address }
  | .write address data => { s with dev := s.dev.writeMem address data }
  | .restore image => { s with dev := s.dev.restored image }
  | .flush t =>
    match s.pc t with
    | .out =>
      if s.dev.dirty then { s.goto t .begun with dev := { s.dev with dirty := false } } else s
    | _ => s
  | .openTmp t ok =>
    match s.pc t with
    | .begun =>
      if ok then { s.goto t (.writing (create s.files).1 0) with files := (create s.files).2 }
      else s.goto t .out
    | _ => s
  | .copy t =>
    match s.pc t with
    | .writing o i =>
      if i < s.dev.size then
        { s.goto t (.writing o (i + 1)) with files := put s.files o i (s.dev.flash i) }
      else s
    | _ => s
  | .finish t ok =>
    match s.pc t with
    | .writing _ i => { s.goto t .out with files := replace s.files (ok && i == s.dev.size) }
    | _ => s

/-- A flash that has just been loaded from its file. -/
def start (chips : Nat) (data : Nat → BitVec 8) : FlashRun T where
  dev := { chips, flash := data, mode := fun _ => .read, dirty := false }
  files := { file := 0, tmp := none, image := fun _ => ⟨CHIP_SIZE * chips, data⟩, fresh := 1 }
  pc := fun _ => .out

/-- The steps in the order they are taken. -/
def run (chips : Nat) (data : Nat → BitVec 8) (acts : List (FlashAct T)) : FlashRun T :=
  acts.foldl step (start chips data)

/-- The flash file holds the contents. -/
def Saved : Prop :=
  (s.files.image s.files.file).length = s.dev.size ∧
    ∀ i < s.dev.size, (s.files.image s.files.file).byte i = s.dev.flash i

/-- A flush under way has still to copy the byte. -/
def Pending (i : Nat) : Prop :=
  ∃ t, match s.pc t with
    | .out => False
    | .begun => True
    | .writing _ copied => copied ≤ i

/-- Where saving keeps up: a flush begins while no other is under way; its save fails only once the
flag is set again, or where the file is up to date as it is; and a state restore finds the flag set,
or brings the bytes that are there, but for those that a flush has still to copy. -/
def Keeps (s : FlashRun T) : FlashAct T → Prop
  | .flush _ => s.dev.dirty = true → ∀ u, s.pc u = .out
  | .openTmp t ok => s.pc t = .begun → ok = true ∨ s.dev.dirty = true ∨ s.Saved
  | .finish t ok => ∀ o i, s.pc t = .writing o i →
      (ok = true ∧ i = s.dev.size) ∨ s.dev.dirty = true ∨ s.Saved
  | .restore image => s.dev.dirty = true ∨
      ∀ i < s.dev.size, s.Pending i ∨ (s.dev.restored image).flash i = s.dev.flash i
  | _ => True

end FlashRun

/-! ## One part by itself -/

/-- A write to a part. -/
structure FlashWrite where
  offset : Fin CHIP_SIZE
  byte : BitVec 8
  deriving DecidableEq

/-- A write of a command byte at 555. -/
def FlashWrite.Setup (w : FlashWrite) (command : BitVec 8) : Prop :=
  w.offset.val % 0x800 = 0x555 ∧ w.byte = command

/-- The second write of an unlock. -/
def FlashWrite.Confirm (w : FlashWrite) : Prop := w.offset.val % 0x800 = 0x2aa ∧ w.byte = 0x55

instance (w : FlashWrite) (command : BitVec 8) : Decidable (w.Setup command) :=
  inferInstanceAs (Decidable (_ ∧ _))

instance (w : FlashWrite) : Decidable w.Confirm := inferInstanceAs (Decidable (_ ∧ _))

structure FlashPart where
  mode : FlashMode
  bytes : Fin CHIP_SIZE → BitVec 8

/-- What happens to a part: a state restore brings it the bytes that there are for it. -/
inductive PartOp where
  | read (offset : Fin CHIP_SIZE)
  | write (w : FlashWrite)
  | restore (image : Fin CHIP_SIZE → Option (BitVec 8))

namespace FlashPart

variable (p : FlashPart)

/-- The state that a write leads to. -/
def next (w : FlashWrite) : FlashMode → FlashMode
  | .program => .read
  | .step1 => if w.Confirm then .step2 else .read
  | .step2 =>
    if w.Setup 0x90 then .autosel
    else if w.Setup 0xa0 then .program
    else if w.Setup 0x80 then .eraseStep3
    else .read
  | .eraseStep3 => if w.Setup 0xaa then .eraseStep4 else .read
  | .eraseStep4 => if w.Confirm then .eraseStep5 else .read
  | .eraseStep5 => if w.Setup 0x10 ∨ w.byte = 0x30 then .confirm1 else .read
  | .read | .autosel | .confirm0 | .confirm1 => if w.Setup 0xaa then .step1 else .read

/-- What a write does to the bytes. -/
def change (w : FlashWrite) (bytes : Fin CHIP_SIZE → BitVec 8) :
    FlashMode → Fin CHIP_SIZE → BitVec 8
  | .program => Function.update bytes w.offset (bytes w.offset &&& w.byte)
  | .eraseStep5 => fun x =>
    if w.Setup 0x10 then 0xff
    else if w.byte = 0x30 ∧ x.val / 0x10000 = w.offset.val / 0x10000 then 0xff
    else bytes x
  | _ => bytes

/-- What a read returns. -/
def data (offset : Fin CHIP_SIZE) : BitVec 64 :=
  match p.mode with
  | .autosel => if offset.val % 0x100 = 0 then 1 else if offset.val % 0x100 = 1 then 0xad else 0
  | .confirm0 | .confirm1 => 0x80
  | _ => (p.bytes offset).setWidth 64

/-- The state that a read leads to: it counts the status reads after an erase. -/
def afterRead : FlashMode → FlashMode
  | .confirm0 => .read
  | .confirm1 => .confirm0
  | m => m

def step : PartOp → FlashPart
  | .read _ => { p with mode := afterRead p.mode }
  | .write w => ⟨next w p.mode, change w p.bytes p.mode⟩
  | .restore image => { p with bytes := fun x => (image x).getD (p.bytes x) }

def run (bytes : Fin CHIP_SIZE → BitVec 8) (ops : List PartOp) : FlashPart :=
  ops.foldl step ⟨.read, bytes⟩

end FlashPart

/-- The writes among what happens to a part, the last one first. -/
def writesOf (ops : List PartOp) : List FlashWrite :=
  (ops.filterMap fun op => match op with
    | .write w => some w
    | _ => none).reverse

/-- The writes to a part so far end in AA, 55, A0. -/
def ProgramSet (past : List FlashWrite) : Prop :=
  ∃ u v w rest, past = w :: v :: u :: rest ∧ u.Setup 0xaa ∧ v.Confirm ∧ w.Setup 0xa0

/-- The writes to a part so far end in AA, 55, 80, AA, 55. -/
def EraseSet (past : List FlashWrite) : Prop :=
  ∃ u v w x y rest, past = y :: x :: w :: v :: u :: rest ∧ u.Setup 0xaa ∧ v.Confirm ∧
    w.Setup 0x80 ∧ x.Setup 0xaa ∧ y.Confirm

/-- A write completes a command that gives a byte its new value. -/
def Completes (past : List FlashWrite) (w : FlashWrite) (x : Fin CHIP_SIZE)
    (old new : BitVec 8) : Prop :=
  (ProgramSet past ∧ x = w.offset ∧ new = old &&& w.byte) ∨
    (EraseSet past ∧ (w.Setup 0x10 ∨ (w.byte = 0x30 ∧ x.val / 0x10000 = w.offset.val / 0x10000)) ∧
      new = 0xff)

/-- A byte of the flash by its part's number. -/
def place (p : Nat) (x : Fin CHIP_SIZE) : Nat := CHIP_SIZE * p + x.val

def offsetOf (a : Nat) : Fin CHIP_SIZE := ⟨a % CHIP_SIZE, Nat.mod_lt _ (by decide)⟩

/-- An access reaches a part: in range, on the lower lane, and at its number. -/
def Reaches (chips p : Nat) (address : BitVec 64) : Prop :=
  CFlash.byteOf address < CHIP_SIZE * chips ∧ address &&& 4 = 0 ∧
    CFlash.byteOf address / CHIP_SIZE = p

instance (chips p : Nat) (address : BitVec 64) : Decidable (Reaches chips p address) :=
  inferInstanceAs (Decidable (_ ∧ _))

/-- What a step is to a part. -/
def opOn {T : Type} (chips p : Nat) : FlashAct T → Option PartOp
  | .read address =>
    if Reaches chips p address then some (.read (offsetOf (CFlash.byteOf address))) else none
  | .write address data =>
    if Reaches chips p address then
      some (.write ⟨offsetOf (CFlash.byteOf address), data.setWidth 8⟩)
    else none
  | .restore image => some (.restore fun x => image[place p x]?)
  | _ => none

/-- A part of the device. -/
def CFlash.part (s : CFlash) (p : Nat) : FlashPart := ⟨s.mode p, fun x => s.flash (place p x)⟩

end Alphabox.Platform
