import Alphabox.Storage.DiskOverlay

/-!
# What an overlay stands for

With every file write succeeding, an overlay is a plain copy of the base that the writes are
applied to. Where the host may stop or a file write may fail, it is a copy that may lose the last
of the pieces written to it, cluster by cluster, but nothing else: a crash loses the last of a
session, and a write the last of its own, when one of the file writes it made failed.
-/

namespace Alphabox.Storage

open Lib

/-! ## A plain copy -/

/-- A read of a plain copy stops at its end. -/
def plainRead (d : File) (pos n : Nat) : List UInt8 := d.slice pos (min n (d.size - pos))

/-- A write to a plain copy stops at its end. -/
def plainWrite (d : File) (pos : Nat) (src : List UInt8) : File :=
  d.writeAt pos (src.take (d.size - pos))

/-- A plain copy of a base, and whether it is thrown away when closed. -/
structure Plain where
  disk : File
  discard : Bool

namespace Plain

def exec (base : File) (p : Plain) : Op → Plain × Out
  | .read pos n => (p, .bytes (plainRead p.disk pos n))
  | .write pos src =>
    ({ p with disk := plainWrite p.disk pos src }, .count (min src.length (p.disk.size - pos)))
  | .reopen discard => ({ disk := if p.discard then base else p.disk, discard }, .opened)

def outs (base : File) (p : Plain) : List Op → List Out
  | [] => []
  | op :: ops => (p.exec base op).2 :: (p.exec base op).1.outs base ops

end Plain

/-- An overlay over `base` answers as a plain copy of `base` does, leaves `base` alone and never
gives one slot to two clusters. -/
def FaithfulDisk (base : File) : Prop :=
  ∀ path discard ops, ∃ o, DiskOverlay.run base path discard (fun _ => true) (ops.map .op) =
      .ok (o, Plain.outs base { disk := base, discard } ops) ∧ o.base = base ∧
    ∀ (c c' m : Nat), o.map[c]? = some (m + 1) → o.map[c']? = some (m + 1) → c = c'

/-! ## A copy that may lose pieces -/

/-- The pieces of a write, one for each cluster it touches. -/
def piecesOf (size pos : Nat) (src : List UInt8) : List (Nat × List UInt8) :=
  if _h : src.length = 0 ∨ size ≤ pos then []
  else
    let len := DiskOverlay.pieceLen size pos src.length
    (pos, src.take len) :: piecesOf size (pos + len) (src.drop len)
termination_by src.length
decreasing_by
  have := @DiskOverlay.pieceLen_pos size pos src.length (by omega) (by omega)
  simp only [List.length_drop]
  omega

/-- A disk since it was last opened: what it held then and the pieces written to it. -/
structure Session where
  start : File
  pieces : List (Nat × List UInt8)
  discard : Bool

namespace Session

/-- The disk after the first `m` pieces. -/
def after (s : Session) (m : Nat) : File := s.start.writeAll (s.pieces.take m)

def disk (s : Session) : File := s.after s.pieces.length

/-- A step, from the fates of the file writes to come to those left. A write makes at most three
file writes for each of its pieces and applies the first `j` of the pieces, all of them unless one
of these file writes failed; a crash keeps the first `m` pieces of the session. -/
inductive Step (base : File) : Session → (Nat → Bool) → Event → Session → (Nat → Bool) → Out → Prop
  | read (s : Session) (fate : Nat → Bool) (pos n : Nat) :
      Step base s fate (.op (.read pos n)) s fate (.bytes (plainRead s.disk pos n))
  | write (s : Session) (fate later : Nat → Bool) (pos : Nat) (src : List UInt8) (j c : Nat)
      (hj : j ≤ (piecesOf base.size pos src).length)
      (hc : c ≤ 3 * (piecesOf base.size pos src).length)
      (hf : Tried fate later c (j = (piecesOf base.size pos src).length)) :
      Step base s fate (.op (.write pos src))
        { s with pieces := s.pieces ++ (piecesOf base.size pos src).take j } later
        (.count (((piecesOf base.size pos src).take j).map (·.2.length)).sum)
  | reopen (s : Session) (fate : Nat → Bool) (discard : Bool) :
      Step base s fate (.op (.reopen discard))
        { start := if s.discard then base else s.disk, pieces := [], discard } fate .opened
  | crash (s : Session) (fate : Nat → Bool) (k : Nat) (discard : Bool) (m : Nat)
      (hm : m ≤ s.pieces.length) :
      Step base s fate (.crash k discard) { start := s.after m, pieces := [], discard } fate .opened

inductive Run (base : File) : Session → (Nat → Bool) → List Event → List Out → Prop
  | nil (s : Session) (fate : Nat → Bool) : Run base s fate [] []
  | cons {s s' : Session} {fate later : Nat → Bool} {e : Event} {es : List Event} {out : Out}
      {outs : List Out} : Step base s fate e s' later out → Run base s' later es outs →
      Run base s fate (e :: es) (out :: outs)

end Session

/-- In every run, whichever file writes fail and wherever the host stops, the overlay over `base`
opens and answers as a disk that lost at most the last pieces of a session in a crash, and of a
write in one of its own file writes that failed. -/
def CrashSafe (base : File) : Prop :=
  ∀ path discard fate es, ∃ o outs, DiskOverlay.run base path discard fate es = .ok (o, outs) ∧
    Session.Run base { start := base, pieces := [], discard } fate es outs

end Alphabox.Storage
