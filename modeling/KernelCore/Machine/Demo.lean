import KernelCore.Machine.Boot
import KernelCore.Machine.Contexts

/-!
# Demonstration workload

After boot the kernel runs three workers, which share the processor with the idle loop. A worker
wakes on every timer interrupt that finds it running and reports every 50 of them.
-/

namespace KernelCore

/-- What a process is doing when it waits for an interrupt. -/
inductive Activity
  | idle
  | worker (id round : Nat)
deriving DecidableEq, Repr

namespace Demo

def workers : Nat := 3

def stackSize : Nat := 4 * 4096

/-- Address of the workers' code. -/
def workerEntry : UInt64 := 0xffffffff80002000

def workerStack : Kernel (Option VirtAddr) := do
  match ← Kernel.allocateRun stackSize with
  | .error _ => pure none
  | .ok p => Kernel.directAddress p

def workerPlan (id : Nat) (stack : VirtAddr) : ProcessPlan :=
  .kernel workerEntry (UInt64.ofNat id) stack (UInt64.ofNat stackSize)

def startWorker (id : Nat) : Kernel Unit := do
  match ← workerStack with
  | none => Kernel.log .warn ("No stack for worker " ++ toString id)
  | some stack =>
    match ← Kernel.spawn (Kernel.newProcess (workerPlan id stack) true) with
    | .ok pid => Kernel.log .info ("Worker " ++ toString id ++ " is process " ++ toString pid)
    | .error e => Kernel.log .warn ("Worker " ++ toString id ++ " not started: " ++ e.message)

/-- Spawns the `n` workers from `id` on. -/
def startWorkers : (n id : Nat) → Kernel Unit
  | 0, _ => pure ()
  | n + 1, id => do
    startWorker id
    startWorkers n (id + 1)

/-- Boots, spawns the workers and starts the timer, up to the idle loop. -/
def start (h : Handoff) : Kernel Unit := do
  let pid ← Kernel.boot h
  Kernel.log .info ("Boot context is process " ++ toString pid)
  startWorkers workers 0
  Kernel.startKernelTimer
  Kernel.setInterrupts true

/-- What an activity does between two waits. -/
def wake : Activity → Kernel Activity
  | .idle => pure .idle
  | .worker id round => do
    let round := round + 1
    if round % 50 = 0 then
      let pid ← Kernel.currentPid
      Kernel.log .info ("Worker " ++ toString id ++ " (pid " ++
        Text.optional (pid.map toString) ++ ") at round " ++ toString round)
    pure (.worker id round)

/-- A worker that was just entered, with its number in `rdi`. -/
def entered (m : Machine) (address : UInt64) : Option Activity :=
  if address = workerEntry then some (.worker m.processor.rdi.toNat 0) else none

/-- A timer interrupt, after which some activity goes on with interrupts enabled. -/
def interrupt (c : Contexts Activity) : Kernel (Contexts Activity) := do
  Kernel.setInterrupts false
  let c ← match ← Kernel.timerInterrupt with
    | none => pure c
    | some (sw, landing) =>
      match c.change sw landing (entered (← get)) with
      | none => throw .fault
      | some c => pure c
  Kernel.setInterrupts true
  pure { c with running := ← wake c.running }

/-- Waits for interrupts, of which there are `n`. -/
def idle : (n : Nat) → Contexts Activity → Kernel Unit
  | 0, _ => Kernel.sleep
  | n + 1, c => do
    if (← get).processor.interruptsEnabled then idle n (← interrupt c) else Kernel.sleep

/-- The kernel from its entry on, with `n` timer interrupts. -/
def run (h : Handoff) (n : Nat) : Kernel Unit := do
  start h
  idle n ⟨.idle, []⟩

end Demo

end KernelCore
