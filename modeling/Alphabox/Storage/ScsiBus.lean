import Alphabox.Storage.OverlayFile
import Alphabox.Storage.ScsiDisk

/-!
# A SCSI target and its initiator, whatever it does

An initiator selects the target and moves and ends transfers in any order, and sees the bytes, the
bus phase and how much the target expects. In between the machine may be switched off and on: the
overlay's file is closed and opened again. The same drive over a plain copy of the base, in memory,
says what an overlay is for.
-/

namespace Alphabox.Storage

open Lib

/-! ## One drive -/

/-- What an initiator does: `scsi_select_me`, the two directions of `scsi_xfer_ptr_me`, and
`scsi_xfer_done_me`. -/
inductive BusOp where
  | select (atn : Bool)
  | take (bytes : Nat)
  | give (src : List UInt8)
  | done

/-- What an initiator sees: the bytes it took, the phase and the bytes expected. -/
structure BusView where
  bytes : List UInt8
  phase : Phase
  expected : Nat
  deriving DecidableEq

namespace CDisk

variable {σ τ : Type}

/-- The same target, over another medium. -/
def withMedium (d : CDisk σ) (m : τ) : CDisk τ where
  medium := m
  blockSize := d.blockSize
  isCdrom := d.isCdrom
  readOnly := d.readOnly
  isRemovable := d.isRemovable
  atapiMode := d.atapiMode
  phase := d.phase
  identifyReceived := d.identifyReceived
  lunSelected := d.lunSelected
  resetUnitAttention := d.resetUnitAttention
  mediaUnitAttention := d.mediaUnitAttention
  mediaTrayOpen := d.mediaTrayOpen
  cmd := d.cmd
  msgo := d.msgo
  dati := d.dati
  dato := d.dato
  stat := d.stat
  msgi := d.msgi
  sense := d.sense
  stream := d.stream

def busOp (M : Medium σ) (hs : Handlers σ) (d : CDisk σ) : BusOp → List UInt8 × CDisk σ
  | .select atn => ([], d.select atn)
  | .take bytes => d.xferIn bytes
  | .give src => ([], d.xferOut src)
  | .done => ([], d.xferDone M hs)

def view (r : List UInt8 × CDisk σ) : BusView := ⟨r.1, r.2.phase, r.2.expectedXfer⟩

end CDisk

/-! ## Drives that are switched off and on -/

/-- What happens to a drive. When it is switched on again the target is as its constructor leaves
it, `target`, and `overlay_discard` is as configured now. -/
inductive DriveEvent where
  | bus (op : BusOp)
  | restart (target : CDisk Unit) (discard : Bool)

namespace OverlayFile

variable {o o' : DiskOverlay} {discard : Bool} {out : Out}

/-- An overlay that is closed and opened again. -/
theorem reopened (hS : o.base.size ≤ maxBase) (h : ∃ s, Sim o.base o s)
    (he : o.reopen o.close discard = .ok (o', out)) :
    o'.base = o.base ∧ (∃ s, Sim o.base o' s) ∧ o'.disk = (if o.discard then o.base else o.disk) ∧
      o'.discard = discard ∧ (Calm o → Calm o') := by
  obtain ⟨s, h⟩ := h
  obtain ⟨o₁, s₁, out₁, he₁, hstep, hs₁⟩ := h.step hS (.op (.reopen discard))
  have heq : (Except.ok (o', out) : Except Fault (DiskOverlay × Out)) = .ok (o₁, out₁) :=
    he.symm.trans he₁
  cases heq
  generalize hf : o'.f.fate = later at hstep
  cases hstep
  refine ⟨hs₁.base_eq, ⟨_, hs₁⟩, ?_, hs₁.discard_eq, fun hc n => ?_⟩
  · rw [hs₁.disk_eq hS, h.discard_eq, h.disk_eq hS]
    rfl
  · rw [hf]
    exact hc n

/-- A new overlay. -/
theorem created {base : File} {path : String} {fate : Nat → Bool}
    (he : DiskOverlay.openOverlay base base.size path discard { file := .ok none } fate = .ok o) :
    o.base = base ∧ (∃ s, Sim base o s) ∧ (base.size ≤ maxBase → o.disk = base) ∧
      o.discard = discard ∧ o.f.fate = fate := by
  obtain ⟨o₁, he₁, hs₁, hf, -⟩ := open_absent base path discard fate
  have heq : (Except.ok o : Except String DiskOverlay) = .ok o₁ := he.symm.trans he₁
  cases heq
  exact ⟨hs₁.base_eq, ⟨_, hs₁⟩, fun hS => hs₁.disk_eq hS, hs₁.discard_eq, hf⟩

/-- The image with a new overlay. -/
def create (base : File) (hS : base.size ≤ maxBase) (path : String) (discard readOnly : Bool)
    (fate : Nat → Bool) : Except Fault OverlayFile :=
  match h : DiskOverlay.openOverlay base base.size path discard { file := .ok none } fate with
  | .error e => .error (.openFailed e)
  | .ok o => .ok
    { overlay := o
      bytePos := 0
      readOnly
      small := (created h).1 ▸ hS
      sound := (created h).1 ▸ (created h).2.1 }

/-- The image and its overlay when the machine is switched on again. -/
def restart (s : OverlayFile) (discard : Bool) : Except Fault OverlayFile :=
  match h : s.overlay.reopen s.overlay.close discard with
  | .error e => .error e
  | .ok r => .ok
    { overlay := r.1
      bytePos := 0
      readOnly := s.readOnly
      small := (reopened s.small s.sound h).1 ▸ s.small
      sound := (reopened s.small s.sound h).1 ▸ (reopened s.small s.sound h).2.1 }

end OverlayFile

/-- A drive over an image with an overlay. -/
abbrev OverlayDrive : Type := CDisk OverlayFile

namespace OverlayDrive

def step (hs : Handlers OverlayFile) (d : OverlayDrive) :
    DriveEvent → Except Fault (BusView × OverlayDrive)
  | .bus op => .ok (CDisk.view (d.busOp OverlayFile.medium hs op),
      (d.busOp OverlayFile.medium hs op).2)
  | .restart target discard =>
    match d.medium.restart discard with
    | .error e => .error e
    | .ok m => .ok (CDisk.view ([], target.withMedium m), target.withMedium m)

def runAll (hs : Handlers OverlayFile) (d : OverlayDrive) :
    List DriveEvent → Except Fault (List BusView × OverlayDrive)
  | [] => .ok ([], d)
  | e :: es =>
    match d.step hs e with
    | .error e => .error e
    | .ok (v, d) =>
      match d.runAll hs es with
      | .error e => .error e
      | .ok (vs, d) => .ok (v :: vs, d)

/-- A run of a drive over a base, from a new overlay on. -/
def run (hs : Handlers OverlayFile) (base : File) (hS : base.size ≤ maxBase) (path : String)
    (discard readOnly : Bool) (fate : Nat → Bool) (target : CDisk Unit) (es : List DriveEvent) :
    Except Fault (List BusView × OverlayDrive) :=
  match OverlayFile.create base hS path discard readOnly fate with
  | .error e => .error e
  | .ok m => runAll hs (target.withMedium m) es

end OverlayDrive

/-- A drive over a copy of the base in memory, and whether the copy is thrown away when the machine
is switched off. -/
structure PlainDrive where
  disk : CDisk DiskRam
  discard : Bool

namespace PlainDrive

def step (ks : Handlers DiskRam) (fresh : DiskRam) (p : PlainDrive) :
    DriveEvent → BusView × PlainDrive
  | .bus op => (CDisk.view (p.disk.busOp DiskRam.medium ks op),
      { p with disk := (p.disk.busOp DiskRam.medium ks op).2 })
  | .restart target discard =>
    let kept := if p.discard then fresh else { p.disk.medium with bytePos := 0 }
    (CDisk.view ([], target.withMedium kept), ⟨target.withMedium kept, discard⟩)

def runAll (ks : Handlers DiskRam) (fresh : DiskRam) (p : PlainDrive) :
    List DriveEvent → List BusView × PlainDrive
  | [] => ([], p)
  | e :: es =>
    ((p.step ks fresh e).1 :: ((p.step ks fresh e).2.runAll ks fresh es).1,
      ((p.step ks fresh e).2.runAll ks fresh es).2)

/-- A run of a drive over a copy of the base. -/
def run (ks : Handlers DiskRam) (fresh : DiskRam) (discard : Bool) (target : CDisk Unit)
    (es : List DriveEvent) : List BusView × PlainDrive :=
  runAll ks fresh ⟨target.withMedium fresh, discard⟩ es

end PlainDrive

end Alphabox.Storage
