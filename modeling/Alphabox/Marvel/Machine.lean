import Mathlib.Data.List.Range
import Alphabox.Lib.Reach
import Alphabox.Marvel.Io7

/-!
# The chipset (`chipsets/marvel/Marvel.cpp`)

The IO7s and the register blocks together, with each operation run to its end: the line of a
device changes, a processor writes a register of an IO7 or of a block, or reads one of a block.
-/

namespace Alphabox.Marvel

structure Machine (σ : Type) where
  io7 : Nat → Io7
  csr : Nat → Csr
  world : World σ

variable {σ : Type} (M : Management σ) (b : Board)

/-- The IO7s in the order of `resend_iids`. -/
def Board.io7s : List Nat := (List.range kMaxPids).filter b.io7

namespace Machine

variable (m : Machine σ)

def setIo7 (x : Nat) (io : Io7) : Machine σ := { m with io7 := Function.update m.io7 x io }

def setCsr (pid : Nat) (c : Csr) : Machine σ := { m with csr := Function.update m.csr pid c }

def reset (w : World σ) : Machine σ where
  io7 x := .reset (b.ioSysRev x)
  csr pid := .reset b pid
  world := w

/-- `deliver` up to the answer of `post_iid`: the answer with the chipset after it, or `none`
when there is nothing to send or nobody to send it to. -/
def post (x n : Nat) : Option (Bool × Machine σ) :=
  match (m.io7 x).ready n with
  | none => none
  | some pid =>
    if b.csr pid then
      match (m.csr pid).postIid b pid (iidOf x n) with
      | some c => some (true, { m.setCsr pid c with world := m.world.note (.iid pid (iidOf x n)) })
      | none => some (false, m)
    else none

/-- The rest of `deliver`. -/
def answered (x n : Nat) (taken : Bool) : Machine σ := m.setIo7 x ((m.io7 x).answered n taken)

/-- `CIo7::deliver`. -/
def deliver (x n : Nat) : Machine σ :=
  match m.post b x n with
  | none => m
  | some (taken, m') => m'.answered x n taken

/-- An iteration of the loop of `CIo7::resend`. -/
def deliverAgain (x n : Nat) : Machine σ :=
  if (m.io7 x).refused n then m.deliver b x n else m

/-- `CIo7::resend`. -/
def resend (x : Nat) : Machine σ :=
  (List.range kLsis).foldl (fun m n => m.deliverAgain b x n) m

/-- `CMarvel::resend_iids`. -/
def resendIids : Machine σ := b.io7s.foldl (fun m x => m.resend b x) m

/-- An operation of an IO7, with the deliveries that end it. -/
def io7Op (x : Nat) (r : Io7 × List Nat) : Machine σ :=
  r.2.foldl (fun m n => m.deliver b x n) (m.setIo7 x r.1)

inductive Op where
  /-- `CMarvel::interrupt`. -/
  | interrupt (number : Nat) (assert : Bool)
  | io7Write (x port off dsize : Nat) (data : BitVec 64)
  | csrWrite (pid off dsize : Nat) (data : BitVec 64)
  | csrRead (pid off dsize : Nat)

/-- An operation, and the value it reads. -/
def step (m : Machine σ) : Op → BitVec 64 × Machine σ
  | .interrupt number assert =>
    let x := number >>> 8
    (0, if b.io7 x then m.io7Op b x ((m.io7 x).lsi (number &&& 0xff) assert) else m)
  | .io7Write x port off dsize data =>
    (0, if b.io7 x then m.io7Op b x ((m.io7 x).write port off dsize data) else m)
  | .csrWrite pid off dsize data =>
    if b.csr pid then
      let r := (m.csr pid).write M b pid m.world off dsize data
      let m := { m.setCsr pid r.1 with world := r.2.1 }
      (0, if r.2.2 then m.resendIids b else m)
    else (0, m)
  | .csrRead pid off dsize =>
    if b.csr pid then
      let r := (m.csr pid).read M b pid m.world off dsize
      (r.1, { m.setCsr pid r.2.1 with world := r.2.2 })
    else (0, m)

/-- The machines reached from reset. -/
def Run : Machine σ → Prop :=
  Lib.Reach (fun m => ∃ w, m = reset b w) (fun _ _ => True) fun m op => (m.step M b op).2

/-! ## The state file -/

/-- What `CMarvel::save_state` writes. -/
structure Saved where
  csr : Nat → Csr.Saved
  io7 : Nat → Io7.Saved

def save : Saved where
  csr pid := (m.csr pid).save
  io7 x := (m.io7 x).save

/-- `CMarvel::restore_state`. The processors and the management side, `w`, are restored by
others. -/
def restore (s : Saved) (w : World σ) : Machine σ where
  csr pid := (m.csr pid).restore b pid (s.csr pid)
  io7 x := (m.io7 x).restore (s.io7 x)
  world := w

end Machine

end Alphabox.Marvel
