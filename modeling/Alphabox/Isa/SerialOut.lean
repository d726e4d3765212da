import Alphabox.Isa.Serial

/-!
# Telnet output of a serial port (`devices/isa/Serial.cpp`)

The processors append to `out_queue`, a byte 255 twice; the port's thread takes the queue into
`out_sending` and hands that to the client as the socket takes it. A queue that nobody empties loses
its oldest bytes, and what a client had not received when it went away is kept for the next, behind
that one's greeting. An append runs under `out_lock` and so does the thread's taking of the queue:
each is one step. `raw_mode`, the BREAK menu's own output and the wake-ups are left out.
-/

namespace Alphabox.Isa

def DO : UInt8 := 253

/-- `TELOPT_BINARY`, `TELOPT_ECHO`, `TELOPT_SGA`, `TELOPT_NAWS` and `TELOPT_LFLOW`. -/
def TELOPT_BINARY : UInt8 := 0

def TELOPT_ECHO : UInt8 := 1

def TELOPT_SGA : UInt8 := 3

def TELOPT_NAWS : UInt8 := 31

def TELOPT_LFLOW : UInt8 := 33

def OUT_QUEUE_MAX : Nat := 256 * 1024

/-- The options that a greeting begins with. -/
def greetingOptions : List UInt8 :=
  [IAC, DO, TELOPT_ECHO, IAC, DO, TELOPT_NAWS, IAC, DO, TELOPT_LFLOW, IAC, WILL, TELOPT_ECHO,
    IAC, WILL, TELOPT_SGA, IAC, DO, TELOPT_BINARY, IAC, WILL, TELOPT_BINARY]

/-- The greeting, with its text; `serial1` has none. -/
def greeting (serial1 : Bool) (text : List UInt8) : List UInt8 :=
  if serial1 then [] else greetingOptions ++ text

/-- What the UART's `tx` hands to `write`. -/
def txBytes (b : UInt8) : List UInt8 := if b = IAC then [0xff, 0xff] else [b]

structure SerialOut where
  /-- `out_queue`. -/
  queue : List UInt8
  /-- `out_sending`, and how much of it the socket has taken. -/
  sending : List UInt8
  sent : Nat
  connected : Bool
  /-- What the client has received, or the last one did. -/
  client : List UInt8
  /-- What the clients before it have. -/
  before : List (List UInt8)
  /-- What the guest has put out. -/
  guest : List UInt8

namespace SerialOut

variable (s : SerialOut)

/-- `write`, on a queue that holds the new bytes: the oldest quarter goes at once. -/
def excess (queue : List UInt8) : Nat :=
  if OUT_QUEUE_MAX < queue.length then queue.length - OUT_QUEUE_MAX * 3 / 4 else 0

/-- A byte of the guest's. -/
def tx (b : UInt8) : SerialOut :=
  let queue := s.queue ++ txBytes b
  { s with queue := queue.drop (excess queue), guest := s.guest ++ [b] }

/-- One turn of `send_output`, of whose bytes the socket takes `n` at most. -/
def sendOutput (n : Nat) : SerialOut :=
  if !s.connected then s
  else
    let s := if s.sent = s.sending.length then
        { s with sending := s.queue, sent := 0, queue := [] }
      else s
    let n := min n (s.sending.length - s.sent)
    { s with sent := s.sent + n, client := s.client ++ (s.sending.drop s.sent).take n }

/-- `drop_client`. -/
def dropClient : SerialOut :=
  if s.connected then
    { s with
      connected := false
      queue := s.sending.drop s.sent ++ s.queue
      sending := []
      sent := 0 }
  else s

/-- `WaitForConnection`, when a client comes. -/
def connect (greet : List UInt8) : SerialOut :=
  if s.connected then s
  else
    { s with
      connected := true
      queue := greet ++ s.queue
      client := []
      before := s.client :: s.before }

end SerialOut

inductive OutEvent
  | tx (b : UInt8)
  | send (n : Nat)
  | drop
  | connect

def SerialOut.start : SerialOut := ⟨[], [], 0, false, [], [], []⟩

def SerialOut.step (greet : List UInt8) (s : SerialOut) : OutEvent → SerialOut
  | .tx b => s.tx b
  | .send n => s.sendOutput n
  | .drop => s.dropClient
  | .connect => s.connect greet

/-! ## What clients are meant to receive -/

/-- A data byte in the stream. -/
def dataItem (b : UInt8) : TelnetItem := if h : b = IAC then .iac else .data b h

/-- Data bytes, as RFC 854 has them sent. -/
def encode (l : List UInt8) : List UInt8 := (l.map dataItem).flatMap TelnetItem.bytes

/-- What stands before the data: the greeting, or nothing where a full queue has lost it. -/
def Greeted (greet g : List UInt8) : Prop := g = greet ∨ g = []

/-- A part of the greeting, or behind it data bytes only: some of the guest's in their order, and
behind them perhaps the first half of a byte whose other half is to come. -/
def Framed (greet guest received : List UInt8) : Prop :=
  received <+: greet ∨ ∃ g l tail, Greeted greet g ∧ received = g ++ encode l ++ tail ∧
    (tail = [] ∨ tail = [IAC]) ∧ l.Sublist guest

/-- A step that takes nothing apart: what a full queue loses is the greeting and whole data bytes,
and so is what a client has had that goes away, with whole data bytes left for the next. -/
def OutEvent.Whole (greet : List UInt8) (s : SerialOut) : OutEvent → Prop
  | .tx b => ∃ g l, Greeted greet g ∧
      (s.queue ++ txBytes b).take (SerialOut.excess (s.queue ++ txBytes b)) = g ++ encode l
  | .drop => s.connected = true → ∃ g l m, Greeted greet g ∧ s.client = g ++ encode l ∧
      s.sending.drop s.sent ++ s.queue = encode m
  | _ => True

/-- The runs of such steps. -/
inductive WholeRun (greet : List UInt8) : SerialOut → Prop
  | start : WholeRun greet SerialOut.start
  | step {s : SerialOut} (e : OutEvent) :
    WholeRun greet s → e.Whole greet s → WholeRun greet (s.step greet e)

end Alphabox.Isa
