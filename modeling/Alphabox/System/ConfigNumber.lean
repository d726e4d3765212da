import Mathlib.Algebra.GroupWithZero.Nat
import Alphabox.System.Configurator

/-!
# Numeric values of a configuration (`system/Configurator.cpp`)

`get_num_value` reads groups of digits, each with a suffix that multiplies it, and adds them up in
64 bits. One flag remembers that any of its computations has wrapped.
-/

namespace Alphabox.System

/-- Why `get_num_value` refuses a value. -/
inductive NumberError where
  /-- "it is empty" -/
  | empty
  /-- "a number is digits, and a group of them may end in K, M, G or T (512M, 2G512M)" -/
  | form
  /-- "out of range (more than 64 bits)" -/
  | range
  deriving DecidableEq

/-- A digit character. -/
def isDigit (c : UInt8) : Bool := 0x30 ≤ c && c ≤ 0x39

/-- `~(u64)0`. -/
def u64Max : UInt64 := ~~~0

/-- The digits of a group: the flag, the part read so far and what is left of the text. -/
def scanDigits : Bool → UInt64 → Bytes → Bool × UInt64 × Bytes
  | overflow, part, [] => (overflow, part, [])
  | overflow, part, c :: rest =>
    if isDigit c then
      let d := (c - 0x30).toUInt64
      scanDigits (overflow || part > (u64Max - d) / 10) (part * 10 + d) rest
    else (overflow, part, c :: rest)

/-- Where a suffix stands in "KMGT", counted from 1. -/
def suffixPlace (c : UInt8) : Option Nat :=
  if c = 0x4b then some 1
  else if c = 0x4d then some 2
  else if c = 0x47 then some 3
  else if c = 0x54 then some 4
  else none

/-- A suffix: so many multiplications by `unit`. -/
def scale (unit : UInt64) : Nat → Bool → UInt64 → Bool × UInt64
  | 0, overflow, part => (overflow, part)
  | n + 1, overflow, part => scale unit n (overflow || part > u64Max / unit) (part * unit)

theorem length_scanDigits (text : Bytes) (overflow : Bool) (part : UInt64) :
    (scanDigits overflow part text).2.2.length ≤ text.length := by
  induction text generalizing overflow part with
  | nil => exact Nat.le_refl _
  | cons c rest ih =>
    rw [scanDigits]
    split
    · exact Nat.le_succ_of_le (ih _ _)
    · exact Nat.le_refl _

theorem length_of_scanDigits {text rest : Bytes} {overflow o : Bool} {part p : UInt64} {s : UInt8}
    (h : scanDigits overflow part text = (o, p, s :: rest)) : rest.length < text.length := by
  have := length_scanDigits text overflow part
  rwa [h] at this

/-- The groups of a value: the flag and the sum. -/
def scanGroups (unit : UInt64) (overflow : Bool) (total : UInt64) (text : Bytes) :
    Except NumberError (Bool × UInt64) :=
  match text with
  | [] => .ok (overflow, total)
  | c :: cs =>
    if !isDigit c then .error .form
    else
      match _h : scanDigits overflow 0 (c :: cs) with
      | (overflow, part, []) => .ok (overflow || total > u64Max - part, total + part)
      | (overflow, part, s :: rest) =>
        match suffixPlace s with
        | none => .error .form
        | some n =>
          let (overflow, part) := scale unit n overflow part
          scanGroups unit (overflow || total > u64Max - part) (total + part) rest
termination_by text.length
decreasing_by exact length_of_scanDigits _h

/-- What a suffix multiplies by. -/
def numUnit (decimal : Bool) : UInt64 := if decimal then 1000 else 1024

/-- The body of `get_num_value`, for the value it has found. -/
def numValue (decimal : Bool) (text : Bytes) : Except NumberError UInt64 :=
  if text = [] then .error .empty
  else do
    let (overflow, total) ← scanGroups (numUnit decimal) false 0 text
    if overflow then .error .range else return total

/-- `get_num_value`: a refusal names the value. -/
def getNumValue (values : List ConfigValue) (n : Bytes) (decimal : Bool) (dflt : UInt64) :
    Except (ConfigValue × NumberError) UInt64 :=
  match values.find? (·.name == n) with
  | none => .ok dflt
  | some v => (numValue decimal v.value).mapError (v, ·)

/-! ## What a value says -/

/-- A group of digits and its suffix. -/
structure NumGroup where
  digits : List (Fin 10)
  suffix : Option (Fin 4)

def digitByte (d : Fin 10) : UInt8 := 0x30 + UInt8.ofNat d

def suffixByte (k : Fin 4) : UInt8 := [0x4b, 0x4d, 0x47, 0x54].get k

namespace NumGroup

variable (g : NumGroup)

/-- The group as it is written. -/
def text : Bytes := g.digits.map digitByte ++ (g.suffix.map suffixByte).toList

/-- The exact number that the group stands for. -/
def value (unit : Nat) : Nat :=
  g.digits.foldl (fun n d => n * 10 + d.val) 0 * unit ^ g.suffix.elim 0 (·.val + 1)

end NumGroup

/-- One group or more: each has digits, and each but the last a suffix. -/
structure IsNumber (gs : List NumGroup) : Prop where
  groups : gs ≠ []
  digits : ∀ g ∈ gs, g.digits ≠ []
  suffixes : ∀ g ∈ gs.dropLast, g.suffix ≠ none

/-- The groups written one after the other. -/
def numText (gs : List NumGroup) : Bytes := gs.flatMap NumGroup.text

/-- Their exact sum. -/
def numSum (unit : Nat) (gs : List NumGroup) : Nat := (gs.map (·.value unit)).sum

end Alphabox.System
