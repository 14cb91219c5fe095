import KernelCore.Machine.Demo
import KernelCore.Machine.Workload
import KernelCore.Proofs.Machine.AddressSpaces
import KernelCore.Proofs.Memory.Mirrors
import KernelCore.Proofs.Memory.PoolSelection
import KernelCore.Proofs.Paging.Attempts
import KernelCore.Proofs.Paging.Contents
import KernelCore.Proofs.Paging.Rights
import KernelCore.Proofs.Scheduler.Occupant
import KernelCore.Proofs.Scheduler.Pids
import KernelCore.Proofs.Scheduler.ProcessorTime
import KernelCore.Proofs.Scheduler.Quantum
import KernelCore.Proofs.Scheduler.Waiting
import KernelCore.Proofs.Frames.FirstFit
import KernelCore.Proofs.Frames.Books
import KernelCore.Proofs.Frames.Returns
import KernelCore.Proofs.Machine.Boot
import KernelCore.Proofs.Machine.Logging
import KernelCore.Proofs.Machine.Startup
import KernelCore.Proofs.Paging.Chains
import KernelCore.Proofs.Scheduler.Dispatching
import KernelCore.Proofs.Scheduler.Rotation
import KernelCore.Proofs.Machine.NewProcesses
import KernelCore.Proofs.Paging.Confinement
import KernelCore.Proofs.Memory.Reflections
import KernelCore.Proofs.Memory.Heap
import KernelCore.Proofs.Memory.Backing
import KernelCore.Proofs.Memory.DirectMap
import KernelCore.Proofs.Memory.EntryOrder
import KernelCore.Proofs.Memory.Placement
import KernelCore.Proofs.Machine.Refusals
import KernelCore.Proofs.Memory.Geometry
import KernelCore.Proofs.Interrupts.ReloadValue
