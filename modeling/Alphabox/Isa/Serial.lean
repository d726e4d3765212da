import Alphabox.Lib.Numerals

/-!
# Telnet input of a serial port (`devices/isa/Serial.cpp`)

`execute` is what the port's thread does each time round: it hands a character that is staged to the
UART and, every tenth time and only with nothing staged, reads the socket and takes the telnet
protocol out of what it gets. A command may be cut by the end of a read; what there is of it is
carried to the next. `raw_mode`, the interrupts and a client that hangs up are left out, and so is
the BREAK menu, which clears `breakHit`.
-/

namespace Alphabox.Isa

/-! ## `telnet.h` -/

def IAC : UInt8 := 255

def DONT : UInt8 := 254

def WILL : UInt8 := 251

def SB : UInt8 := 250

def BREAK : UInt8 := 243

def SE : UInt8 := 240

def RECV_TICKS : Nat := 10

def FIFO_SIZE : Nat := 1024

def STAGE_SIZE : Nat := 8192

/-- WILL, WONT, DO or DONT: an option follows. -/
def isNegotiation (cmd : UInt8) : Bool := WILL ≤ cmd && cmd ≤ DONT

/-- What the decoder keeps between reads. -/
structure Telnet where
  /-- The first `iac_carry_len` bytes of `iac_carry`. -/
  iacCarry : List UInt8
  inSubneg : Bool
  afterCr : Bool
  breakHit : Bool

/-- The loop of `execute` over `raw`: the decoder behind it, and what is in `cbuffer`. -/
def cook (t : Telnet) : List UInt8 → Telnet × List UInt8
  | [] => (t, [])
  | b :: bs =>
    if t.inSubneg then
      if b = IAC then
        match bs with
        | [] => ({ t with iacCarry := [IAC] }, [])
        | c :: bs => if c = SE then cook { t with inSubneg := false } bs else cook t bs
      else cook t bs
    else if b = IAC then
      match bs with
      | [] => ({ t with iacCarry := [IAC] }, [])
      | cmd :: bs =>
        if cmd = IAC then
          let (t', c) := cook { t with afterCr := false } bs
          (t', 0xff :: c)
        else if isNegotiation cmd then
          match bs with
          | [] => ({ t with iacCarry := [IAC, cmd] }, [])
          | _ :: bs => cook t bs
        else if cmd = SB then cook { t with inSubneg := true } bs
        else if cmd = BREAK then cook { t with breakHit := true } bs
        else cook t bs
    else if b = 0 ∧ t.afterCr then cook { t with afterCr := false } bs
    else
      let (t', c) := cook { t with afterCr := b == 13 } bs
      (t', b :: c)

/-- A read's bytes behind those carried. -/
def Telnet.read (t : Telnet) (bytes : List UInt8) : Telnet × List UInt8 :=
  cook { t with iacCarry := [] } (t.iacCarry ++ bytes)

/-! ## The port's thread -/

structure Serial where
  /-- `serial_cycles`. -/
  cycles : Nat
  /-- The first `stageLen` bytes of `stageBuf`. -/
  stage : List UInt8
  telnet : Telnet

/-- What one read of the socket may give. -/
abbrev Chunk : Type := { bytes : List UInt8 // 0 < bytes.length ∧ bytes.length ≤ FIFO_SIZE }

/-- What a turn of the thread finds: the UART's receiver empty, with room for a character, and what
the socket has, if it is read. -/
structure Turn where
  rxEmpty : Bool
  room : Bool
  socket : Option Chunk

/-- The port, with every byte that it has read, staged and handed to the UART. -/
structure SerialRun where
  port : Serial
  received : List UInt8
  staged : List UInt8
  delivered : List UInt8

namespace SerialRun

variable (s : SerialRun)

/-- `drain_staging`. -/
def drainStaging (rxEmpty room : Bool) : SerialRun :=
  if rxEmpty && room then
    { s with
      port := { s.port with stage := s.port.stage.drop 1 }
      delivered := s.delivered ++ s.port.stage.take 1 }
  else s

/-- The read of the socket. -/
def recv (bytes : List UInt8) : SerialRun :=
  let (t, cbuffer) := s.port.telnet.read bytes
  let fit := min cbuffer.length (STAGE_SIZE - s.port.stage.length)
  { s with
    port := { s.port with telnet := t, stage := s.port.stage ++ cbuffer.take fit }
    received := s.received ++ bytes
    staged := s.staged ++ cbuffer.take fit }

/-- `execute`. -/
def execute (turn : Turn) : SerialRun :=
  let s := s.drainStaging turn.rxEmpty turn.room
  let cycles := s.port.cycles + 1
  if RECV_TICKS ≤ cycles then
    let s := { s with port := { s.port with cycles := 0 } }
    if s.port.stage ≠ [] then s
    else
      match turn.socket with
      | none => s
      | some chunk => s.recv chunk.1
  else { s with port := { s.port with cycles := cycles } }

/-- A port whose client has just connected. -/
def start : SerialRun := ⟨⟨0, [], ⟨[], false, false, false⟩⟩, [], [], []⟩

def run (turns : List Turn) : SerialRun := turns.foldl execute start

end SerialRun

/-! ## RFC 854 -/

/-- What may stand in a subnegotiation: a byte, or IAC with anything but SE. -/
inductive SubnegItem
  | byte (b : UInt8) (h : b ≠ IAC)
  | pair (c : UInt8) (h : c ≠ SE)

def SubnegItem.bytes : SubnegItem → List UInt8
  | .byte b _ => [b]
  | .pair c _ => [IAC, c]

/-- A stream is made of these. -/
inductive TelnetItem
  | data (b : UInt8) (h : b ≠ IAC)
  /-- The byte 255, doubled. -/
  | iac
  | option (cmd opt : UInt8) (h : isNegotiation cmd = true)
  | subneg (body : List SubnegItem)
  | command (cmd : UInt8) (h : cmd ≠ IAC ∧ isNegotiation cmd = false ∧ cmd ≠ SB)

namespace TelnetItem

def bytes : TelnetItem → List UInt8
  | .data b _ => [b]
  | .iac => [IAC, IAC]
  | .option cmd opt _ => [IAC, cmd, opt]
  | .subneg body => [IAC, SB] ++ body.flatMap SubnegItem.bytes ++ [IAC, SE]
  | .command cmd _ => [IAC, cmd]

/-- The data byte that it stands for. -/
def payload : TelnetItem → Option UInt8
  | .data b _ => some b
  | .iac => some 0xff
  | _ => none

def isBreak : TelnetItem → Bool
  | .command cmd _ => cmd == BREAK
  | _ => false

end TelnetItem

/-- What there may be of an item at the end of a stream. -/
inductive TelnetRest
  | none
  | iac
  | option (cmd : UInt8) (h : isNegotiation cmd = true)
  | subneg (body : List SubnegItem)
  | subnegIac (body : List SubnegItem)

namespace TelnetRest

def bytes : TelnetRest → List UInt8
  | .none => []
  | .iac => [IAC]
  | .option cmd _ => [IAC, cmd]
  | .subneg body => [IAC, SB] ++ body.flatMap SubnegItem.bytes
  | .subnegIac body => [IAC, SB] ++ body.flatMap SubnegItem.bytes ++ [IAC]

/-- The command that is cut, which the next read begins with. -/
def carry : TelnetRest → List UInt8
  | .none => []
  | .iac => [IAC]
  | .option cmd _ => [IAC, cmd]
  | .subneg _ => []
  | .subnegIac _ => [IAC]

/-- A subnegotiation is not over. -/
def isOpen : TelnetRest → Bool
  | .subneg _ => true
  | .subnegIac _ => true
  | _ => false

end TelnetRest

/-- CR NUL is a bare CR. -/
def dropNul (afterCr : Bool) : List UInt8 → List UInt8
  | [] => []
  | b :: bs => if b = 0 ∧ afterCr then dropNul false bs else b :: dropNul (b == 13) bs

end Alphabox.Isa
