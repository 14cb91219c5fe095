import KernelCore.Address
import KernelCore.Process.Registers
import KernelCore.Process.State

/-!
# Process descriptors
-/

namespace KernelCore

abbrev Pid := Nat

/-- Ring of privilege, 0 the most privileged. -/
abbrev Ring := Fin 4

/-- The ring that the kernel runs in. -/
def Ring.innermost : Ring := ⟨0, by decide⟩

def Ring.name (r : Ring) : String := "Ring" ++ toString r.val

/-- Execution state of a process's single thread. -/
structure ThreadState where
  id : Nat
  entry : UInt64
  /-- Lowest address of the stack. -/
  stackBase : UInt64
  /-- One past the highest address of the stack. -/
  stackTop : UInt64
  pagesMapped : Nat
  /-- Nanoseconds spent running. -/
  timeUsed : Nat
  /-- Nanoseconds granted at a time. -/
  timeSlice : Nat
  kernel : Bool
  registers : Registers
deriving DecidableEq, Repr

/-- A thread that has not run and owns no stack. -/
def ThreadState.blank : ThreadState := ⟨0, 0, 0, 0, 0, 0, 0, false, .zero⟩

structure ProcessDescriptor where
  pid : Pid
  core : Nat
  state : ProcessState
  privilege : Ring
  threadId : Nat
  heapStart : UInt64
  heapEnd : UInt64
  thread : ThreadState
deriving DecidableEq, Repr

namespace ProcessDescriptor

def display (p : ProcessDescriptor) : Text.Display :=
  let t := p.thread
  .record "Process"
    [("pid", .atom (toString p.pid)), ("core_id", .atom (toString p.core)),
      ("state", .atom p.state.name), ("privilege", .atom p.privilege.name),
      ("thread_id", .atom (toString p.threadId)),
      ("heap_start", .atom (toString p.heapStart.toNat)),
      ("heap_end", .atom (toString p.heapEnd.toNat)),
      ("cpu", .record "CpuState"
        [("id", .atom (toString t.id)), ("entry", .atom (toString t.entry.toNat)),
          ("kernel_stack", .atom (toString t.stackBase.toNat)),
          ("user_stack", .atom (toString t.stackTop.toNat)),
          ("pages_mapped", .atom (toString t.pagesMapped)),
          ("time_used", .atom (toString t.timeUsed)),
          ("time_slice", .atom (toString t.timeSlice)),
          ("kernel", .atom (toString t.kernel)),
          ("regs", t.registers.display)])]

end ProcessDescriptor

/-- What a new process is to be. -/
structure ProcessPlan where
  entry : UInt64
  /-- Argument of the entry point. -/
  argument : UInt64
  /-- Ring, in the low two bits. -/
  privilege : UInt8
  stackBase : VirtAddr
  stackSize : UInt64
  heapBase : UInt64
  heapSize : UInt64
  /-- Address space to run in; `none` stays in the one that is loaded. -/
  root : Option Frame
deriving DecidableEq, Repr

namespace ProcessPlan

/-- A kernel thread on the given stack. -/
def kernel (entry argument : UInt64) (stackBase : VirtAddr) (stackSize : UInt64) : ProcessPlan :=
  ⟨entry, argument, 0, stackBase, stackSize, 0, 0, none⟩

def ring (c : ProcessPlan) : Ring := ⟨c.privilege.toNat % 4, Nat.mod_lt _ (by decide)⟩

/-- The stack's end, rounded down to 16 bytes. The rounded stack has to hold three words: the
sentinel at its top, and the two that loading a register file pushes. -/
def stackTop? (c : ProcessPlan) : Option Nat :=
  let stop := c.stackBase.val + c.stackSize.toNat
  let top := stop / 16 * 16
  if stop < 0x10000000000000000 ∧ c.stackBase.val + 24 ≤ top then some top else none

/-- Address of the word above which nothing of the process lies. -/
def sentinelAddress (top : Nat) : Nat := top - 8

/-- Where a new process starts: at its entry, with the interrupt flag set, and with its stack
pointer on the sentinel. -/
def registers (c : ProcessPlan) (top : Nat) : Registers :=
  { Registers.zero with
    rip := c.entry
    rsp := UInt64.ofNat (sentinelAddress top)
    rflags := 0x202
    rdi := c.argument
    cr3 := match c.root with
      | none => 0
      | some f => UInt64.ofNat f.base.val }

def thread (c : ProcessPlan) (top : Nat) : ThreadState :=
  { ThreadState.blank with
    entry := c.entry
    stackBase := UInt64.ofNat c.stackBase.val
    stackTop := UInt64.ofNat top
    kernel := c.ring == Ring.innermost
    registers := c.registers top }

end ProcessPlan

end KernelCore
