import Alphabox.Lib.File

/-!
# The copy-on-write overlay (`CDiskOverlay`, `devices/storage/DiskOverlay.cpp`)

The writes of a disk are kept in a file of their own, over a base image that is only read. The
overlay file is a header, the cluster map from `kMapStart` on, and the slots from `dataStart` on.
File positions and sizes are natural numbers (`off_t_large` is a signed 64-bit type); `u32` marks
the places where the source narrows to 32 bits. A `write_at` may fail, as the handle's `fate` says;
an access of the cluster map outside its bounds is `none`.
-/

namespace Alphabox.Storage

open Lib

/-! ## Constants and byte order -/

def kCluster : Nat := 0x10000

/-- `"ABXCOW01"`. -/
def kMagic : List UInt8 := [0x41, 0x42, 0x58, 0x43, 0x4f, 0x57, 0x30, 0x31]

def kVersion : Nat := 1

def kMapStart : Nat := 4096

def u32 (n : Nat) : Nat := n % 2 ^ 32

def put32 (v : Nat) : List UInt8 := (List.range 4).map fun i => UInt8.ofNat (v >>> (8 * i))

def put64 (v : Nat) : List UInt8 := (List.range 8).map fun i => UInt8.ofNat (v >>> (8 * i))

def get32 (p : List UInt8) : Nat :=
  (p.getD 0 0).toNat ||| (p.getD 1 0).toNat <<< 8 ||| (p.getD 2 0).toNat <<< 16 |||
    (p.getD 3 0).toNat <<< 24

def get64 (p : List UInt8) : Nat := get32 p ||| get32 (p.drop 4) <<< 32

/-! ## The overlay -/

/-- One round of `base_tag`: the hash `h` continued over the cluster at `pos`. -/
def tagCluster (base : File) (size : Nat) (h : UInt64) (pos : Nat) : Option UInt64 :=
  (base.readAt pos (min (size - pos) kCluster)).map fun buf =>
    buf.foldl (fun h b => (h ^^^ b.toUInt64) * 0x100000001b3) h

/-- FNV-1a over the base's first and last cluster. -/
def baseTag (base : File) (size : Nat) : Option UInt64 :=
  let last := if size > kCluster then size - kCluster else 0
  match tagCluster base size 0xcbf29ce484222325 0 with
  | none => none
  | some h => tagCluster base size h last

/-- What the host answers: the file at the path (`none` for `ENOENT`), whether it can be created,
and whether its head can be written; a failure is the text of its `errno`. -/
structure Host where
  file : Except String (Option File)
  create : Except String Unit := .ok ()
  writeHead : Except String Unit := .ok ()

structure DiskOverlay where
  base : File
  f : Handle
  baseSize : Nat
  dataStart : Nat
  /-- Per cluster: 0 for the base, `n` for slot `n - 1`. -/
  map : Array Nat
  /-- Slots in use. -/
  used : Nat
  filePath : String
  discard : Bool

namespace DiskOverlay

/-- How many clusters `open` finds in a base. -/
def clusterCount (baseSize : Nat) : Nat := u32 ((baseSize + kCluster - 1) / kCluster)

def dataStartOf (clusters : Nat) : Nat :=
  (kMapStart + clusters * 4 + kCluster - 1) / kCluster * kCluster

/-- The fields at the start of the file. -/
def header (baseSize tag : Nat) : List UInt8 :=
  kMagic ++ put32 kVersion ++ put32 kCluster ++ put64 baseSize ++ put64 tag ++
    put32 (clusterCount baseSize)

/-- What a new overlay file holds: the header, then zeros up to the first slot. -/
def head (baseSize tag : Nat) : List UInt8 :=
  header baseSize tag ++
    List.replicate (dataStartOf (clusterCount baseSize) - (header baseSize tag).length) 0

/-- The map and the slots in use of an existing file, once its header matches. -/
def load (baseSize tag : Nat) (path : String) (file : File) : Except String (Array Nat × Nat) :=
  match file.readAt 0 40 with
  | none => .error (path ++ " is not an Alphabox overlay")
  | some hdr =>
    if hdr.take 8 ≠ kMagic ∨ get32 (hdr.drop 8) ≠ kVersion ∨ get32 (hdr.drop 12) ≠ kCluster then
      .error (path ++ " is not an Alphabox overlay")
    else if get64 (hdr.drop 16) ≠ baseSize ∨ get64 (hdr.drop 24) ≠ tag ∨
        get32 (hdr.drop 32) ≠ clusterCount baseSize then
      .error (path ++ " was made over another base image")
    else
      match file.readAt kMapStart (clusterCount baseSize * 4) with
      | none => .error (path ++ ": cluster map cut short")
      | some raw =>
        let map := Array.ofFn fun c : Fin (clusterCount baseSize) => get32 (raw.drop (c * 4))
        .ok (map, map.foldl max 0)

/-- `open`. -/
def openOverlay (base : File) (baseSize : Nat) (path : String) (discard : Bool) (host : Host)
    (fate : Nat → Bool) : Except String DiskOverlay :=
  match baseTag base baseSize with
  | none => .error "cannot read the base image"
  | some tag =>
    let made (file : File) (map : Array Nat) (used : Nat) : DiskOverlay :=
      { base, baseSize, map, used, discard,
        f := { opened := file, writes := [], fate }
        dataStart := dataStartOf (clusterCount baseSize)
        filePath := path }
    match host.file with
    | .error e => .error ("cannot open " ++ path ++ ": " ++ e)
    | .ok (some file) =>
      match load baseSize tag.toNat path file with
      | .error e => .error e
      | .ok (map, used) => .ok (made file map used)
    | .ok none =>
      match host.create, host.writeHead with
      | .error e, _ => .error ("cannot create " ++ path ++ ": " ++ e)
      | .ok (), .error e => .error ("cannot write " ++ path ++ ": " ++ e)
      | .ok (), .ok () =>
        .ok (made (File.empty.writeAt 0 (head baseSize tag.toNat))
          (Array.replicate (clusterCount baseSize) 0) 0)

/-- What the destructor leaves at the path. -/
def close (o : DiskOverlay) : Option File := if o.discard then none else some o.f.cur

def slotOffset (o : DiskOverlay) (slot : Nat) : Nat := o.dataStart + slot * kCluster

/-- `write_at` on the overlay file. -/
def writeAt (o : DiskOverlay) (pos : Nat) (bs : List UInt8) : DiskOverlay × Bool :=
  ({ o with f := (o.f.writeAt pos bs).1 }, (o.f.writeAt pos bs).2)

/-- Give `cluster` a slot of its own, holding the base's bytes: the copy first, then the map
entry. -/
def claim (o : DiskOverlay) (cluster : Nat) : DiskOverlay × Bool :=
  let at_ := cluster * kCluster
  let n := min (o.baseSize - at_) kCluster
  match o.base.readAt at_ n with
  | none => (o, false)
  | some bs =>
    let slot := o.used
    let copy := o.writeAt (o.slotOffset slot) (bs ++ List.replicate (kCluster - n) 0)
    if !copy.2 then (copy.1, false)
    else
      let entry := copy.1.writeAt (kMapStart + cluster * 4) (put32 (u32 (slot + 1)))
      if !entry.2 then (entry.1, false)
      else
        ({ entry.1 with
            map := entry.1.map.setIfInBounds cluster (u32 (slot + 1)), used := u32 (slot + 1) },
          true)

/-- The slot of a map entry, `map[c] - 1`. -/
def slotOf (entry : Nat) : Nat := u32 (entry + (2 ^ 32 - 1))

/-- How much of a transfer of `n` bytes at `pos` lies in the cluster there. -/
def pieceLen (baseSize pos n : Nat) : Nat :=
  min (min n (kCluster - pos % kCluster)) (baseSize - pos)

theorem pieceLen_pos {baseSize pos n : Nat} (hn : n ≠ 0) (hp : pos < baseSize) :
    0 < pieceLen baseSize pos n := by
  simp only [pieceLen, kCluster]
  omega

/-- `read`: the bytes moved, `none` if the map is accessed outside its bounds. -/
def read (o : DiskOverlay) (pos n : Nat) : Option (List UInt8) :=
  if _h : n = 0 ∨ o.baseSize ≤ pos then some []
  else
    let c := u32 (pos / kCluster)
    let off := pos % kCluster
    let len := pieceLen o.baseSize pos n
    match o.map[c]? with
    | none => none
    | some m =>
      match if m ≠ 0 then o.f.cur.readAt (o.slotOffset (slotOf m) + off) len
          else o.base.readAt pos len with
      | none => some []
      | some bs => (o.read (pos + len) (n - len)).map (bs ++ ·)
termination_by n
decreasing_by
  have := @pieceLen_pos o.baseSize pos n (by omega) (by omega)
  omega

/-- `write`: how many bytes were moved, `none` if the map is accessed outside its bounds. -/
def write (o : DiskOverlay) (pos : Nat) (src : List UInt8) : Option (DiskOverlay × Nat) :=
  if _h : src.length = 0 ∨ o.baseSize ≤ pos then some (o, 0)
  else
    let c := u32 (pos / kCluster)
    let off := pos % kCluster
    let len := pieceLen o.baseSize pos src.length
    match o.map[c]? with
    | none => none
    | some m =>
      match if m = 0 then o.claim c else (o, true) with
      | (o₁, false) => some (o₁, 0)
      | (o₁, true) =>
        match o₁.map[c]? with
        | none => none
        | some m =>
          match o₁.writeAt (o₁.slotOffset (slotOf m) + off) (src.take len) with
          | (o₂, false) => some (o₂, 0)
          | (o₂, true) => (o₂.write (pos + len) (src.drop len)).map fun r => (r.1, len + r.2)
termination_by src.length
decreasing_by
  have := @pieceLen_pos o.baseSize pos src.length (by omega) (by omega)
  simp only [List.length_drop]
  omega

end DiskOverlay

/-! ## Runs -/

/-- What the owner of an overlay does with it. A reopening closes it first. -/
inductive Op where
  | read (pos n : Nat)
  | write (pos : Nat) (src : List UInt8)
  | reopen (discard : Bool)

/-- What happens to an overlay. A crash leaves the file as it was after the first `k` of its
writes, and the overlay is opened again on that. -/
inductive Event where
  | op (op : Op)
  | crash (k : Nat) (discard : Bool)

/-- What an operation answers. -/
inductive Out where
  | bytes (bs : List UInt8)
  | count (n : Nat)
  | opened

/-- What an operation must not run into. -/
inductive Fault where
  | mapRange
  | openFailed (error : String)

namespace DiskOverlay

/-- The overlay opened again, with `file` at its path. -/
def reopen (o : DiskOverlay) (file : Option File) (discard : Bool) :
    Except Fault (DiskOverlay × Out) :=
  match openOverlay o.base o.baseSize o.filePath discard { file := .ok file } o.f.fate with
  | .error e => .error (.openFailed e)
  | .ok o => .ok (o, .opened)

def exec (o : DiskOverlay) : Event → Except Fault (DiskOverlay × Out)
  | .op (.read pos n) =>
    match o.read pos n with
    | none => .error .mapRange
    | some bs => .ok (o, .bytes bs)
  | .op (.write pos src) =>
    match o.write pos src with
    | none => .error .mapRange
    | some (o, n) => .ok (o, .count n)
  | .op (.reopen discard) => o.reopen o.close discard
  | .crash k discard => o.reopen (some (o.f.after k)) discard

def execAll (o : DiskOverlay) : List Event → Except Fault (DiskOverlay × List Out)
  | [] => .ok (o, [])
  | e :: es =>
    match o.exec e with
    | .error e => .error e
    | .ok (o, out) =>
      match o.execAll es with
      | .error e => .error e
      | .ok (o, outs) => .ok (o, out :: outs)

/-- A run on a new overlay over `base`, opened with the size of the image as `DiskFile` does. -/
def run (base : File) (path : String) (discard : Bool) (fate : Nat → Bool) (es : List Event) :
    Except Fault (DiskOverlay × List Out) :=
  match openOverlay base base.size path discard { file := .ok none } fate with
  | .error e => .error (.openFailed e)
  | .ok o => o.execAll es

end DiskOverlay

end Alphabox.Storage
