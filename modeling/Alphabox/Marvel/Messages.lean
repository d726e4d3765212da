import Mathlib.Algebra.BigOperators.Group.Finset.Basic
import Alphabox.Marvel.Machine

/-!
# Interrupts as messages

Any number of threads (processors and devices) run the operations of `Machine` against each other,
one critical section at a time in any order. An operation of an IO7 holds the IO7's lock, and
inside it every `post_iid` takes and releases the lock of the target's block; a pop holds the lock
of its block and releases it before `resend_iids` takes the lock of one IO7 after the other. A
thread that has to wait for a lock spins: its step leaves the state as it is.
-/

namespace Alphabox.Marvel

/-- Where a thread is. -/
inductive Task where
  /-- Outside the IO7s' locks; `resend_iids` still has these IO7s to call. -/
  | free (todo : List Nat)
  /-- In IO7 `x`'s lock, with `ns` to deliver, those refused earlier alone if it is a resend
  (`again`), and `todo` to call after it. -/
  | sending (x : Nat) (again : Bool) (ns todo : List Nat)
  /-- As `sending`, with the answer of `post_iid` for LSI `n` that is not noted yet. -/
  | posted (x n : Nat) (taken again : Bool) (ns todo : List Nat)
  deriving DecidableEq

/-- The threads `τ` of a machine. -/
structure Sys (τ σ : Type) where
  m : Machine σ
  /-- The IO7s' locks. -/
  lock : Nat → Option τ
  task : τ → Task
  /-- The IIDs that are popped and not yet ended. -/
  popped : List (BitVec 64)

variable {τ σ : Type} [DecidableEq τ] (M : Management σ) (b : Board)

/-- Whether a write to an IO7 is an end of interrupt. -/
def isEoi (port off : Nat) : Bool := port < kPorts && off = kCsrOff + EOI_DAT

namespace Sys

variable (s : Sys τ σ)

def init (w : World σ) : Sys τ σ where
  m := .reset b w
  lock _ := none
  task _ := .free []
  popped := []

def setTask (t : τ) (k : Task) : Sys τ σ := { s with task := Function.update s.task t k }

/-- A thread takes the lock of IO7 `x` and goes on at `k`. -/
def enter (t : τ) (x : Nat) (k : Task) : Sys τ σ :=
  { s.setTask t k with lock := Function.update s.lock x (some t) }

/-- A thread begins an operation of IO7 `x`. -/
def io7Op (t : τ) (x : Nat) (r : Io7 × List Nat) : Sys τ σ :=
  { s with m := s.m.setIo7 x r.1 }.enter t x (.sending x false r.2 [])

/-- An idle thread begins an operation; one of a register block alone is over at once. -/
def begin (t : τ) : Machine.Op → Sys τ σ
  | .interrupt number assert =>
    let x := number >>> 8
    if b.io7 x ∧ s.lock x = none then s.io7Op t x ((s.m.io7 x).lsi (number &&& 0xff) assert) else s
  | .io7Write x port off dsize data =>
    if b.io7 x ∧ s.lock x = none then
      let s := { s with popped := if isEoi port off then s.popped.erase data else s.popped }
      s.io7Op t x ((s.m.io7 x).write port off dsize data)
    else s
  | .csrWrite pid off dsize data =>
    if b.csr pid then
      let c := s.m.csr pid
      let r := c.write M b pid s.m.world off dsize data
      { s with
        m := { s.m.setCsr pid r.1 with world := r.2.1 }
        popped := if off = RBOX_INTQ then c.intq.take 1 ++ s.popped else s.popped }.setTask t
        (.free (if r.2.2 then b.io7s else []))
    else s
  | .csrRead pid off dsize =>
    if b.csr pid then
      let r := (s.m.csr pid).read M b pid s.m.world off dsize
      { s with m := { s.m.setCsr pid r.2.1 with world := r.2.2 } }
    else s

/-- The next critical section of a thread. -/
def advance (t : τ) : Sys τ σ :=
  match s.task t with
  | .free [] => s
  | .free (x :: todo) =>
    if s.lock x = none then s.enter t x (.sending x true (List.range kLsis) todo) else s
  | .sending x _ [] todo =>
    { s.setTask t (.free todo) with lock := Function.update s.lock x none }
  | .sending x again (n :: ns) todo =>
    if again && !(s.m.io7 x).refused n then s.setTask t (.sending x again ns todo)
    else
      match s.m.post b x n with
      | none => s.setTask t (.sending x again ns todo)
      | some (taken, m) => { s with m }.setTask t (.posted x n taken again ns todo)
  | .posted x n taken again ns todo =>
    { s with m := s.m.answered x n taken }.setTask t (.sending x again ns todo)

inductive Act (τ : Type) where
  | begin (t : τ) (op : Machine.Op)
  | advance (t : τ)

def step (s : Sys τ σ) : Act τ → Sys τ σ
  | .begin t op => if s.task t = .free [] then s.begin M b t op else s
  | .advance t => s.advance b t

/-- No operation is in progress. -/
def Quiet : Prop := ∀ t, s.task t = .free []

/-- The IIDs equal to `iid` that are in a queue, or popped and not yet ended. -/
def copies (iid : BitVec 64) : Nat :=
  ∑ pid ∈ Finset.range kMaxPids, (s.m.csr pid).intq.count iid + s.popped.count iid

end Sys

/-! ## Runs -/

/-- An end of interrupt is for an IID that is popped, at the IO7 that the IID names. -/
def EndsPopped (s : Sys τ σ) : Sys.Act τ → Prop
  | .begin _ (.io7Write x port off _ data) => isEoi port off → data ∈ s.popped ∧ iidPe data = x
  | _ => True

/-- The IO7 on PE `x` reads the IID as its LSI `n`. -/
def Names (iid : BitVec 64) (x n : Nat) : Prop :=
  iid &&& 1#64 <<< 13 = 0 ∧ (iid &&& 0xff#64).toNat = n ∧ n < kLsis ∧ iidPe iid = x ∧ b.io7 x

/-- An IID added by `R_INT_QUEADD` is none that an IO7 reads as one of its LSIs. -/
def AddsForeign (_ : Sys τ σ) : Sys.Act τ → Prop
  | .begin _ (.csrWrite _ off _ data) =>
    b.m21464 → off = RBOX_INTA → ∀ x n, ¬ Names b (data &&& (INTQ_VALID - 1)) x n
  | _ => True

/-- The states of the runs whose steps are all in `ok`. -/
def SysRun (ok : Sys τ σ → Sys.Act τ → Prop) : Sys τ σ → Prop :=
  Lib.Reach (fun s => ∃ w, s = .init b w) ok (Sys.step M b)

/-! ## What is promised -/

/-- The queue of a block refuses what is posted to it. -/
def Csr.Full (c : Csr) : Prop := b.m21464 ∧ kIntQueue21464 ≤ c.intq.length

instance (c : Csr) : Decidable (c.Full b) := inferInstanceAs (Decidable (_ ∧ _))

/-- `R_INT_STAT<12>`. -/
def Csr.queued (c : Csr) : Bool := (c.reg RBOX_INT).getLsbD 12

/-- LSI `n` of IO7 `x` has its line high, is enabled for the existing PID `pid` and is not in
service. -/
def Machine.Waiting (m : Machine σ) (x n pid : Nat) : Prop :=
  b.io7 x ∧ n < kLsis ∧ (m.io7 x).ready n = some pid ∧ b.csr pid

/-- A pop of the queue of `pid`, run to its end, sends LSI `n` of IO7 `x`. -/
def Machine.SentByPop (m : Machine σ) (x n pid : Nat) : Prop :=
  ∀ dsize data, let m' := (m.step M b (.csrWrite pid RBOX_INTQ dsize data)).2
    (m'.io7 x).inService n ∧ (m'.csr pid).intq = (m.csr pid).intq.drop 1 ++ [iidOf x n]

/-- No LSI that waits for `pid` comes before LSI `n` of IO7 `x`. -/
def Machine.FirstWaiting (m : Machine σ) (x n pid : Nat) : Prop :=
  ∀ y k, y < x ∨ y = x ∧ k < n → ¬ m.Waiting b y k pid

end Alphabox.Marvel
