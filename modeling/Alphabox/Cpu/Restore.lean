import Alphabox.Cpu.Translate

/-!
# Saved state (`SaveState`, `RestoreState`, `cpu/AlphaCPU.cpp`)

A state file holds `state` between two magic numbers. What is derived from it is not saved:
`RestoreState` flushes the page cache and, in a build with the JIT, rebuilds the TB index. The
sections of the native EV8 and of the vector unit are left out.
-/

namespace Alphabox.Cpu

/-- What the reads of a state file give in turn, `none` past its end. -/
structure StateFile where
  magic1 : Option (BitVec 32)
  size : Option Int
  state : Option CpuState
  magic2 : Option (BitVec 32)

def cpuMagic1 : BitVec 32 := 0x2126468c#32

def cpuMagic2 : BitVec 32 := 0xc8646212#32

namespace AlphaCPU

/-- `SaveState`; `size` is `sizeof(state)`. -/
def saveState (c : AlphaCPU) (size : Int) : StateFile where
  magic1 := some cpuMagic1
  size := some size
  state := some c.toCpuState
  magic2 := some cpuMagic2

/-- `tb_idx_rebuild`. -/
def tbIdxRebuild (c : AlphaCPU) : AlphaCPU := { c with idx := fun t => TbIndex.rebuild (c.tb t) }

/-- `RestoreState`, in a build with the JIT if `jit`. A file that ends or fails its second magic
number after `state` leaves the processor with what was read. -/
def restoreState (jit : Bool) (size : Int) (f : StateFile) (c : AlphaCPU) :
    Except String Unit × AlphaCPU :=
  match f.magic1 with
  | none => (.error "unexpected end of file!", c)
  | some m1 =>
    if m1 ≠ cpuMagic1 then (.error "MAGIC 1 does not match!", c)
    else
      match f.size with
      | none => (.error "unexpected end of file!", c)
      | some ss =>
        if ss ≠ size then (.error "STRUCT SIZE does not match!", c)
        else
          match f.state with
          | none => (.error "unexpected end of file!", c)
          | some state =>
            let c := { c with toCpuState := state }
            match f.magic2 with
            | none => (.error "unexpected end of file!", c)
            | some m2 =>
              if m2 ≠ cpuMagic2 then (.error "MAGIC 2 does not match!", c)
              else
                let c := { c with lastDtbVirt := fun _ => 0 }.flushDataPageCache
                (.ok (), if jit then c.tbIdxRebuild else c)

end AlphaCPU

end Alphabox.Cpu
