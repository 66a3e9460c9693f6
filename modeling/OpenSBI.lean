import OpenSBI.Domain.Constraints
import OpenSBI.Domain.RootGrow
import OpenSBI.Domain.Cover
import OpenSBI.Domain.Finalize
import OpenSBI.Riscv.SbiMath
import OpenSBI.Pmp.FailSafe
import OpenSBI.Pmp.Get
import OpenSBI.Pmp.Detect
import OpenSBI.Tlb.Merge
import OpenSBI.Tlb.Range
import OpenSBI.Locks.Ticket
import OpenSBI.Ipi.Lifecycle
import OpenSBI.Ipi.SendMany
import OpenSBI.Ipi.Isolation
import OpenSBI.Ipi.NotLost
import OpenSBI.Pmu.Exact
import OpenSBI.Pmu.Restart
import OpenSBI.Pmu.Match
import OpenSBI.Hsm.Entry
import OpenSBI.Trap.LoadStore
import OpenSBI.Trap.Zicsr
import OpenSBI.Scratch.Alloc
import OpenSBI.Boot.Handoff
import OpenSBI.Ecall.Registry
import OpenSBI.Fifo.Refinement
import OpenSBI.Fp.Slots
import OpenSBI.Fp.BoxedRun
import OpenSBI.Fp.FcvtIf
import OpenSBI.Fp.FcvtFi
import OpenSBI.Fp.MinMax
import OpenSBI.Fp.Vendored
import OpenSBI.System.Reset
import OpenSBI.Fdt.Region
import OpenSBI.Fdt.Populate
import OpenSBI.Fdt.Hide
import OpenSBI.Pmu.EventMap
import OpenSBI.Fdt.Translate
import OpenSBI.Fdt.Aclint
import OpenSBI.Fdt.PhandleArgs
import OpenSBI.Fdt.Pmu
import OpenSBI.Console.Bounded
import OpenSBI.Console.Formats
import OpenSBI.Pmu.Named
import OpenSBI.Timer.Protected
import OpenSBI.Fdt.ReservedTold
import OpenSBI.Domain.ForEach
import OpenSBI.Trap.TimeDelta
import OpenSBI.Timer.MtimerHalves
import OpenSBI.Riscv.BitmapSearch
import OpenSBI.Riscv.StringContract
import OpenSBI.Quad.Exact
import OpenSBI.Trap.Return
import OpenSBI.Trap.Expected
