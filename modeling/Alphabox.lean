import Alphabox.System.Proof.Atomic
import Alphabox.Storage.Proof.Faithful
import Alphabox.Isa.Proof.Cascade
import Alphabox.Isa.Proof.Uart
import Alphabox.Cpu.Proof.Coherence
import Alphabox.Cpu.Proof.Restore
import Alphabox.Marvel.Proof.Restore
import Alphabox.Pci.Proof.SymInterrupts
import Alphabox.Pci.Proof.IspQueues
import Alphabox.Pci.Proof.PciBars
import Alphabox.Pci.Proof.TulipTx
import Alphabox.Cpu.Proof.Ev8Tb
import Alphabox.Pci.Proof.Virtio
import Alphabox.Debug.Proof.RunControl
import Alphabox.Cpu.Proof.Irq
import Alphabox.System.Proof.CodePages
import Alphabox.Cpu.Proof.CycleCounter
import Alphabox.Fp.Proof.Convert
import Alphabox.System.Proof.DmaGate
import Alphabox.System.Proof.InterruptLines
import Alphabox.Marvel.Proof.Rendezvous
import Alphabox.Isa.Proof.Stranded
import Alphabox.Isa.Proof.PitRun
import Alphabox.Tsunami.Proof.Cchip
import Alphabox.Pci.Proof.PciDma
import Alphabox.Isa.Proof.DmaPieces
import Alphabox.Pci.Proof.VirtioWalk
import Alphabox.Storage.Proof.Scsi
import Alphabox.Pci.Proof.IspTransfer
import Alphabox.System.Proof.ConfigParse
import Alphabox.Isa.Proof.ToySet
import Alphabox.Cpu.Proof.IntArith
import Alphabox.System.Proof.ConfigNumber
import Alphabox.Storage.Proof.DiskLayout
import Alphabox.Pci.Proof.Eeprom93cx6
import Alphabox.Pci.Proof.TulipIrq
import Alphabox.Platform.Proof.FlashSaves
import Alphabox.Cpu.Proof.FetchFlush
import Alphabox.Storage.OverlayFile
import Alphabox.Storage.ScsiBus
import Alphabox.Storage.Proof.ScsiBus
import Alphabox.Cpu.Operate
import Alphabox.Jit.A64
import Alphabox.Jit.EmitA64
import Alphabox.Lib.Lanes
import Alphabox.Jit.Proof.Pins
import Alphabox.Jit.Proof.Host
import Alphabox.Jit.Proof.Regs
import Alphabox.Jit.Proof.Values
import Alphabox.Jit.Proof.Swar
import Alphabox.Jit.Proof.Operates
import Alphabox.Jit.Proof.Bytes
import Alphabox.Jit.Proof.EmitOp
import Alphabox.Cpu.Proof.Operate
import Alphabox.Jit.Block
import Alphabox.Jit.Proof.Block
import Alphabox.Jit.Proof.Chain
import Alphabox.Jit.PinSet
import Alphabox.Lib.TopSum
import Alphabox.Jit.Proof.PinSet
import Alphabox.Isa.Serial
import Alphabox.Isa.Proof.Serial
import Alphabox.Isa.SerialOut
import Alphabox.Isa.Proof.SerialOut
