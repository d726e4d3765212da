import Alphabox.Marvel.Messages

/-!
# Restored machines

What a machine shows of itself while operations run, and when a machine that was restored goes on
as the one that was saved.
-/

namespace Alphabox.Marvel

variable {σ : Type} (M : Management σ) (b : Board)

/-- What an operation shows: the value read, the queues and the lines after it, and all that left
the chipset so far. -/
structure Answer where
  value : BitVec 64
  queues : Nat → List (BitVec 64)
  lines : Nat → Nat → Nat
  events : List Event

namespace Machine

def answer (v : BitVec 64) (m : Machine σ) : Answer where
  value := v
  queues pid := (m.csr pid).intq
  lines pid := (m.csr pid).lines8
  events := m.world.events

def answers (m : Machine σ) : List Op → List Answer
  | [] => []
  | op :: ops => (m.step M b op).2.answer (m.step M b op).1 :: (m.step M b op).2.answers ops

/-- The machine answers every sequence of operations as `m` does. -/
def GoesOnAs (r m : Machine σ) : Prop := ∀ ops, r.answers M b ops = m.answers M b ops

/-- The machine without the GIO transactions that wait for their clock. -/
def dropHeld (m : Machine σ) : Machine σ :=
  { m with csr := fun pid => { m.csr pid with gio := { (m.csr pid).gio with held := .none } } }

/-- The state file of `m` restored into `m'`. -/
def restored (m m' : Machine σ) : Machine σ := m'.restore b m.save m.world

end Machine

end Alphabox.Marvel
