import KernelCore.Console
import KernelCore.Cpu.ContextSwitch
import KernelCore.Frames.Resident
import KernelCore.Interrupts.Hardware
import KernelCore.Scheduler.Basic

/-!
# Machine

The whole state that the kernel works on: memory, processor, console, and what the kernel itself
keeps. `Kernel` is the type of its operations; one that stops the processor leaves the state as it
was then.
-/

namespace KernelCore

structure Machine where
  console : Console
  /-- What was done to the hardware, the latest first. -/
  events : List HardwareEvent
  memory : Memory
  /-- The part of memory that the kernel manages. -/
  ram : Span
  processor : Registers
  /-- The register of extended features. -/
  efer : UInt64
  /-- Set once and for all when memory is first set up. -/
  directMap : Option DirectMap
  frames : Option ResidentAllocator
  /-- Direct map through which the page tables are reached, once they may be changed. -/
  mapper : Option DirectMap
  scheduler : Scheduler

abbrev Kernel := EStateM Halt Machine

namespace Machine

/-- Memory that is the kernel's own: the stack that it boots on. -/
def bootStack : Span := ⟨0xffffffff80100000, 0x10000⟩

/-- Memory of process descriptors, one for each slot of the process table. -/
def descriptors : Span := ⟨0xffffffff90000000, 1024 * 256⟩

/-- Address of the register file of the process in a slot. -/
def registerFile (slot : Nat) : UInt64 := UInt64.ofNat (descriptors.base + slot * 256)

/-- A machine before the kernel has set up anything. -/
def off (filter : Option Level) (memory : Memory) (ram : Span) (cr3 : UInt64) : Machine where
  console := ⟨filter, ""⟩
  events := []
  memory := memory
  ram := ram
  processor := { Registers.zero with
    cr3 := cr3
    rflags := 0x2
    rsp := UInt64.ofNat (bootStack.base + bootStack.size) }
  efer := 0x501
  directMap := none
  frames := none
  mapper := none
  scheduler := .empty

end Machine

namespace Kernel

def log (level : Level) (text : String) : Kernel Unit :=
  modify fun m => { m with console := m.console.log ⟨level, text⟩ }

def record (r : Record) : Kernel Unit := log r.level r.text

def print (text : String) : Kernel Unit :=
  modify fun m => { m with console := m.console.print text }

def printLine (text : String) : Kernel Unit := print (text ++ "\n")

def emit (events : List HardwareEvent) : Kernel Unit :=
  modify fun m => { m with events := events.reverse ++ m.events }

def setInterrupts (on : Bool) : Kernel Unit :=
  modify fun m => { m with processor := m.processor.withInterrupts on }

/-- Waits for an interrupt that does not come. -/
def sleep {α : Type} : Kernel α := throw .sleep

/-- Stops the processor for good. -/
def stop {α : Type} : Kernel α := do
  setInterrupts false
  sleep

def checked {α : Type} (r : Except Panic α) : Kernel α :=
  match r with
  | .ok x => pure x
  | .error stop => throw (.panic stop)

def guarded {α : Type} (r : Except Halt α) : Kernel α :=
  match r with
  | .ok x => pure x
  | .error halt => throw halt

/-- Runs an operation on the scheduler; an error changes nothing. -/
def onScheduler {α : Type} (f : Scheduler → Except SchedulerError (α × Scheduler)) :
    Kernel (Except SchedulerError α) := fun m =>
  match f m.scheduler with
  | .error e => .ok (.error e) m
  | .ok (x, scheduler) => .ok (.ok x) { m with scheduler }

end Kernel

end KernelCore
