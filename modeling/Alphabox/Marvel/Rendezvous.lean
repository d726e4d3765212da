import Alphabox.Marvel.Ev7Csr

/-!
# The clock rendezvous (`chipsets/marvel/Ev7Csr.cpp`)

On every 128th tick the primary writes `INT_SYNC` to the `RBOX_IREQ` of every other processor, and
a secondary writes it to its own `RBOX_INT` and spins until the bit is set. `Rendezvous` is one
secondary's block in the EV7 mode with what the two processors have done: any writes of the two
registers and the secondary's polls, in any order.
-/

namespace Alphabox.Marvel

/-- `RBOX_INT<23>`. -/
def Csr.synced (c : Csr) : Bool := (c.reg RBOX_INT).getLsbD 23

/-- A write that has `INT_SYNC`. -/
def isSync (data : BitVec 64) : Bool := data &&& INT_SYNC != 0

/-- A block, and the history of its rendezvous since the reset. -/
structure Rendezvous where
  csr : Csr
  /-- The secondary has begun a wait that no poll has ended. -/
  waiting : Bool
  /-- The broadcasts since the last one that a wait consumed. -/
  issued : Nat
  /-- The waits begun, and the broadcasts that they consumed. -/
  waits : Nat
  consumed : Nat

inductive SyncOp where
  /-- A write of the block's `RBOX_IREQ`: a broadcast if it has `INT_SYNC`. -/
  | ireq (data : BitVec 64)
  /-- A write of its `RBOX_INT`: the beginning of a wait if it has `INT_SYNC`. -/
  | int (data : BitVec 64)
  | poll

namespace Rendezvous

variable (b : Board) (pid : Nat)

/-- After the reset. -/
def init : Rendezvous where
  csr := .reset b pid
  waiting := false
  issued := 0
  waits := 0
  consumed := 0

/-- The secondary spins until the bit is set, and polls while it spins. -/
def allowed (r : Rendezvous) : SyncOp → Prop
  | .ireq _ => True
  | .int data => isSync data → r.waiting = false
  | .poll => r.waiting = true

/-- A write of `RBOX_IREQ`. A broadcast that sets the bit for a spinning secondary is consumed. -/
def ireq (r : Rendezvous) (data : BitVec 64) : Rendezvous :=
  let r' := { r with csr := r.csr.writeIreq b pid data }
  if !isSync data then r'
  else if r.waiting && !r.csr.synced && r'.csr.synced then
    { r' with issued := 0, consumed := r.consumed + 1 }
  else { r' with issued := r.issued + 1 }

/-- A write of `RBOX_INT`. A wait that finds the bit set after its clear has consumed a broadcast
that came before. -/
def int (r : Rendezvous) (data : BitVec 64) : Rendezvous :=
  let r' := { r with csr := r.csr.writeInt b pid data }
  if !isSync data then r'
  else
    let r' := { r' with waiting := true, waits := r.waits + 1 }
    if r'.csr.synced then { r' with issued := 0, consumed := r.consumed + 1 } else r'

def poll (r : Rendezvous) : Rendezvous :=
  { r with waiting := !(r.csr.readReg b pid RBOX_INT).getLsbD 23 }

def step (r : Rendezvous) : SyncOp → Rendezvous
  | .ireq data => r.ireq b pid data
  | .int data => r.int b pid data
  | .poll => r.poll b pid

/-- The secondary spins and nothing has come. -/
def Spinning (r : Rendezvous) : Prop := r.waiting = true ∧ r.csr.synced = false

instance (r : Rendezvous) : Decidable r.Spinning := inferInstanceAs (Decidable (_ ∧ _))

/-- The only wait that loses a broadcast: the first one, when one broadcast has come since the
reset, which leaves `syncWaiting` set. -/
def Lost (r : Rendezvous) : Prop := r.waits = 0 ∧ r.issued = 1

end Rendezvous

end Alphabox.Marvel
