import KernelCore.Machine.Basic

/-!
# Processes on a machine

The scheduler's operations with what they do to memory, processor and console. `carryOut` carries a
switch out with the instructions of `ContextSwitch`, between register files in the memory of the
descriptors.
-/

namespace KernelCore

/-- Where the processor is after a change of process. -/
inductive Landing
  /-- In a process that was switched out before, which goes on after the call that it made. -/
  | resumed
  /-- At an address that no process has called from. -/
  | entered (address : UInt64)
deriving DecidableEq, Repr

namespace Kernel

/-- Address after the scheduler's call of the context switch. -/
def switchReturn : UInt64 := 0xffffffff80001000

/-- Writes a word of managed memory. -/
def storeWord (a : Nat) (w : UInt64) : Kernel Unit := do
  if (← get).ram.covers a 8 then modify fun m => { m with memory := m.memory.setWord a w }
  else throw .fault

/-- Takes the outcome of making a descriptor. -/
def keepDescriptor (r : Except Panic (Except SchedulerError (ProcessDescriptor × Scheduler))) :
    Kernel (Except SchedulerError ProcessDescriptor) := do
  match ← checked r with
  | .ok (p, scheduler) =>
    modify fun m => { m with scheduler }
    pure (.ok p)
  | .error e =>
    if e = .outOfMemory then record (← get).scheduler.exhaustionRecord
    pure (.error e)

/-- A new process. The sentinel is on its stack before there is memory for the descriptor. -/
def newProcess (c : ProcessPlan) (memory : Bool) :
    Kernel (Except SchedulerError ProcessDescriptor) := do
  match c.stackTop? with
  | none => pure (.error .invalidStack)
  | some top =>
    storeWord (ProcessPlan.sentinelAddress top) 0
    keepDescriptor ((← get).scheduler.newProcess c top memory)

def adoptBoot (memory : Bool) : Kernel (Except SchedulerError ProcessDescriptor) := do
  keepDescriptor ((← get).scheduler.adopt memory)

def enlist (p : ProcessDescriptor) : Kernel (Except SchedulerError Pid) := do
  let r ← onScheduler (·.enlist p)
  record (Scheduler.enlistRecord p r)
  pure r

/-- Makes a process and puts it into the table. -/
def spawn (make : Kernel (Except SchedulerError ProcessDescriptor)) :
    Kernel (Except SchedulerError Pid) := do
  match ← make with
  | .error e => pure (.error e)
  | .ok p => enlist p

def setState (pid : Pid) (state : ProcessState) : Kernel (Except SchedulerError Unit) := do
  let before := (← get).scheduler.process? pid
  let r ← onScheduler fun s => (s.setState pid state).map fun s => ((), s)
  match r, before with
  | .ok _, some p => record (Scheduler.transitionRecord p state)
  | _, _ => pure ()
  pure r

def setQuantum (ticks : Nat) : Kernel (Except SchedulerError Unit) :=
  onScheduler fun s => (s.setQuantum ticks).map fun s => ((), s)

def currentPid : Kernel (Option Pid) := do pure (← get).scheduler.currentPid

/-- Accounts a tick, and says which switch is due. -/
def accountTick : Kernel (Option Switch) := do
  let (switch, scheduler) ← checked (← get).scheduler.tick
  modify fun m => { m with scheduler }
  pure switch

def dispatch : Kernel (Option Switch) := do
  match (← get).scheduler.dispatch? with
  | none => pure none
  | some (switch, scheduler) =>
    modify fun m => { m with scheduler }
    pure (some switch)

/-- Registers of the process in a slot. -/
def registersAt (s : Scheduler) (slot : Nat) : Registers :=
  match s.table[slot]? with
  | some p => p.thread.registers
  | none => .zero

/-- The processor before a switch, with the register files of both processes in memory. -/
def switchStart (m : Machine) (sw : Switch) : Processor :=
  let memory :=
    (registersAt m.scheduler sw.next).store m.memory (Machine.registerFile sw.next).toNat
  let memory := match sw.previous with
    | none => memory
    | some i => (registersAt m.scheduler i).store memory (Machine.registerFile i).toNat
  ⟨m.processor, memory, [m.ram, Machine.bootStack, Machine.descriptors], []⟩

/-- The machine after a switch: the process that gave way keeps the registers that were saved. -/
def switchEnd (m : Machine) (sw : Switch) (p : Processor) : Machine :=
  { m with
    memory := p.memory
    processor := p.registers
    events := p.loads.map .loadAddressSpace ++ m.events
    scheduler := match sw.previous with
      | none => m.scheduler
      | some i =>
        let saved := Registers.load p.memory (Machine.registerFile i).toNat
        m.scheduler.modify i fun q => { q with thread := { q.thread with registers := saved } } }

/-- Changes to the next process. -/
def carryOut (sw : Switch) : Kernel Landing := do
  record sw.record
  let m ← get
  let start := switchStart m sw
  let next := Machine.registerFile sw.next
  let outcome := match sw.previous with
    | some i => ContextSwitch.giveWay start (Machine.registerFile i) next switchReturn
    | none => ContextSwitch.enter start next switchReturn
  match outcome with
  | none => throw .fault
  | some p =>
    set (switchEnd m sw p)
    let rip := p.registers.rip
    pure (if rip = switchReturn then .resumed else .entered rip)

/-- Carries out the switch that an operation of the scheduler decides on, with interrupts off.
Without one, interrupts are as they were. -/
def switching (decide : Kernel (Option Switch)) : Kernel (Option (Switch × Landing)) := do
  let on := (← get).processor.interruptsEnabled
  setInterrupts false
  match ← decide with
  | none =>
    setInterrupts on
    pure none
  | some sw => pure (some (sw, ← carryOut sw))

/-- Entry point of the timer. -/
def tick : Kernel (Option (Switch × Landing)) := switching accountTick

/-- Gives up the processor to the next runnable process, if there is one. -/
def yield : Kernel (Option (Switch × Landing)) := switching dispatch

end Kernel

end KernelCore
