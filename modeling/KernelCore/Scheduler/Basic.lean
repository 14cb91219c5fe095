import KernelCore.Console
import KernelCore.Halt
import KernelCore.Process.Descriptor

/-!
# Round-robin scheduler

One processor and a table of processes in the order in which they came. The running
process keeps the processor for a quantum of timer ticks; then the next runnable process after it in
the table gets it. An operation that fails returns no new scheduler, so it changes nothing.
-/

namespace KernelCore

inductive SchedulerError
  | tableFull
  | invalidStack
  | outOfMemory
  | noSuchProcess
  | invalidTransition
  | zeroQuantum
deriving DecidableEq, Repr

def SchedulerError.message : SchedulerError → String
  | .tableFull => "Process table full"
  | .invalidStack => "Invalid process stack"
  | .outOfMemory => "No memory for a process descriptor"
  | .noSuchProcess => "No such process"
  | .invalidTransition => "Invalid process state transition"
  | .zeroQuantum => "Quantum must be at least one tick"

structure Scheduler where
  table : Array ProcessDescriptor
  /-- Slot of the process that has the processor. -/
  current : Option Nat
  nextPid : Pid
  ticks : Nat
  /-- Ticks between two switches. -/
  quantum : Nat
deriving DecidableEq, Repr

/-- A change of process that is decided and not yet carried out, by slot and by pid. -/
structure Switch where
  previous : Option Nat
  next : Nat
  previousPid : Option Pid
  nextPid : Pid
deriving DecidableEq, Repr

namespace Scheduler

def capacity : Nat := 1024

/-- Nanoseconds in a timer tick. -/
def tickPeriod : Nat := 10000000

def empty : Scheduler := ⟨#[], none, 1, 0, 10⟩

/-- Drops every process. The quantum stays. -/
def reset (s : Scheduler) : Scheduler := { empty with quantum := s.quantum }

/-- Nanoseconds in a quantum. -/
def timeSlice (s : Scheduler) : Nat := s.quantum * tickPeriod

/-- A descriptor with the next pid, if there is memory for one. -/
def newDescriptor (s : Scheduler) (privilege : Ring) (heapBase heapSize : UInt64)
    (thread : ThreadState) (memory : Bool) :
    Except Panic (Except SchedulerError (ProcessDescriptor × Scheduler)) :=
  if memory then
    match addWithin UInt32.size s.nextPid 1 with
    | .error stop => .error stop
    | .ok nextPid =>
      let heapEnd := UInt64.ofNat (min (heapBase.toNat + heapSize.toNat) 0xffffffffffffffff)
      .ok (.ok (⟨s.nextPid, 0, .new, privilege, 0, heapBase, heapEnd, thread⟩, { s with nextPid }))
  else .ok (.error .outOfMemory)

/-- A new process on the stack that ends at `top`. -/
def newProcess (s : Scheduler) (c : ProcessPlan) (top : Nat) (memory : Bool) :
    Except Panic (Except SchedulerError (ProcessDescriptor × Scheduler)) :=
  s.newDescriptor c.ring c.heapBase c.heapSize (c.thread top) memory

/-- A descriptor for the code that runs already. Its registers are filled in when it is switched
out. -/
def adopt (s : Scheduler) (memory : Bool) :
    Except Panic (Except SchedulerError (ProcessDescriptor × Scheduler)) :=
  s.newDescriptor Ring.innermost 0 0 { ThreadState.blank with kernel := true } memory

/-- Puts a process at the end of the table. The first one to come gets the processor. -/
def enlist (s : Scheduler) (p : ProcessDescriptor) : Except SchedulerError (Pid × Scheduler) :=
  if capacity ≤ s.table.size then .error .tableFull
  else
    let state : ProcessState := if s.current.isNone then .running else .ready
    let p := { p with state, thread := { p.thread with timeSlice := s.timeSlice } }
    .ok (p.pid, { s with
      table := s.table.push p
      current := if s.current.isNone then some s.table.size else s.current })

def currentProcess (s : Scheduler) : Option ProcessDescriptor := s.current.bind fun i => s.table[i]?

def currentPid (s : Scheduler) : Option Pid := s.currentProcess.map (·.pid)

/-- Slot of the first process in the table with a pid. -/
def slot? (s : Scheduler) (pid : Pid) : Option Nat := s.table.findIdx? (·.pid == pid)

def process? (s : Scheduler) (pid : Pid) : Option ProcessDescriptor :=
  (s.slot? pid).bind fun i => s.table[i]?

def modify (s : Scheduler) (i : Nat) (f : ProcessDescriptor → ProcessDescriptor) : Scheduler :=
  { s with table := s.table.modify i f }

def setStateAt (s : Scheduler) (i : Nat) (state : ProcessState) : Scheduler :=
  s.modify i fun p => { p with state }

def setQuantum (s : Scheduler) (ticks : Nat) : Except SchedulerError Scheduler :=
  if ticks = 0 then .error .zeroQuantum
  else
    let s := { s with quantum := ticks }
    .ok { s with
      table := s.table.map fun p =>
        { p with thread := { p.thread with timeSlice := s.timeSlice } } }

/-- Moves a process along its life cycle. Only the scheduler itself makes a process run. -/
def setState (s : Scheduler) (pid : Pid) (state : ProcessState) : Except SchedulerError Scheduler :=
  match s.slot? pid with
  | none => .error .noSuchProcess
  | some i =>
    match s.table[i]? with
    | none => .error .noSuchProcess
    | some p =>
      if state = .running || !p.state.canBecome state then .error .invalidTransition
      else .ok (s.setStateAt i state)

def isRunnableAt (s : Scheduler) (i : Nat) : Bool :=
  match s.table[i]? with
  | some p => p.state.isRunnable
  | none => false

/-- The first runnable slot after the current one, around the table. -/
def nextRunnable? (s : Scheduler) : Option Nat :=
  let start := match s.current with
    | none => 0
    | some i => i + 1
  ((List.range s.table.size).map fun d => (start + d) % s.table.size).find? s.isRunnableAt

/-- Takes the processor from a process, which is ready again if it was running till now. -/
def suspendAt (s : Scheduler) (i : Nat) : Scheduler :=
  s.modify i fun p => if p.state = .running then { p with state := .ready } else p

/-- Gives the processor to the next runnable process, if there is another one. -/
def dispatch? (s : Scheduler) : Option (Switch × Scheduler) :=
  match s.nextRunnable? with
  | none => none
  | some next =>
    match s.table[next]? with
    | none => none
    | some p =>
      if s.current = some next then none
      else
        let suspended := match s.current with
          | none => s
          | some i => s.suspendAt i
        some (⟨s.current, next, s.currentPid, p.pid⟩,
          { suspended.setStateAt next .running with current := some next })

/-- Charges a tick to the current process. -/
def charge (s : Scheduler) : Except Panic Scheduler :=
  match s.current with
  | none => .ok s
  | some i =>
    match s.table[i]? with
    | none => .ok s
    | some p =>
      match addWithin UInt64.size p.thread.timeUsed tickPeriod with
      | .error stop => .error stop
      | .ok timeUsed => .ok (s.modify i fun p => { p with thread := { p.thread with timeUsed } })

/-- Accounts a timer tick, and switches at the end of a quantum. -/
def tick (s : Scheduler) : Except Panic (Option Switch × Scheduler) :=
  match addWithin UInt64.size s.ticks 1 with
  | .error stop => .error stop
  | .ok ticks =>
    match ({ s with ticks } : Scheduler).charge with
    | .error stop => .error stop
    | .ok s =>
      if s.ticks % s.quantum = 0 then
        match s.dispatch? with
        | none => .ok (none, s)
        | some (switch, s) => .ok (some switch, s)
      else .ok (none, s)

/-- The record of a process that comes into the table, or does not. -/
def enlistRecord (p : ProcessDescriptor) : Except SchedulerError Pid → Record
  | .ok pid => ⟨.debug, "Registered process " ++ toString pid⟩
  | .error _ => ⟨.warn, "Process table full, pid " ++ toString p.pid ++ " not registered"⟩

/-- The record of a descriptor that there was no memory for. -/
def exhaustionRecord (s : Scheduler) : Record :=
  ⟨.warn, "Out of memory for the descriptor of pid " ++ toString s.nextPid⟩

/-- The record of a change of state. -/
def transitionRecord (p : ProcessDescriptor) (state : ProcessState) : Record :=
  ⟨.debug, "Process " ++ toString p.pid ++ ": " ++ p.state.name ++ " -> " ++ state.name⟩

end Scheduler

namespace Switch

def record (sw : Switch) : Record :=
  ⟨.trace, "Switching " ++ Text.optional (sw.previousPid.map toString) ++ " -> " ++
    toString sw.nextPid⟩

end Switch

end KernelCore
