import KernelCore.Machine.Contexts
import KernelCore.Machine.Interrupts

/-!
# Scripted workloads

The boot process and workers run scripts of actions over the kernel and really switch. Everything
that happens is an event; the pid in an event is that of the process that runs. Every step uses up
an action or ends a phase, and processes are limited by the table, which bounds the steps of a run.
-/

namespace KernelCore

inductive Action
  | spawn (worker : Nat)
  | yield
  | tick
  | interrupt
  | setSelf (state : ProcessState)
  /-- Without a pid the running process is meant. -/
  | setState (pid : Option Pid) (state : ProcessState)
  | setQuantum (ticks : Nat)
  | look (pid : Pid)
  | halt
  | unknown (name : String)
deriving DecidableEq, Repr

structure Worker where
  argument : UInt64
  root : Option Frame
  /-- By how much the stack is shorter than usual. -/
  short : Nat
  script : List Action
deriving DecidableEq, Repr

/-- Why a run ends early. -/
inductive Ending
  | halt
  /-- A worker that has terminated got the processor back. -/
  | stuck
deriving DecidableEq, Repr

inductive RunEvent
  | spawn (me : Option Pid) (result : Except SchedulerError Pid)
  | yield (me : Option Pid)
  | tick (me : Option Pid)
  | interrupt (me : Option Pid)
  /-- Back from an action that may switch, with the pid that is then current. -/
  | back (me : Option Pid)
  | setSelf (me : Option Pid) (result : Except SchedulerError Unit)
  | setState (me : Option Pid) (result : Except SchedulerError Unit)
  | setQuantum (me : Option Pid) (result : Except SchedulerError Unit)
  | look (me : Option Pid) (seen : Option (ProcessState × Nat))
  | start (me : Option Pid) (argument : UInt64)
  | exit (me : Option Pid)
  | noSuchWorker
  | unknownAction (name : String)
  | ending (e : Ending)
  | hardware (e : HardwareEvent)

/-- How far a script has come. -/
inductive Phase
  | acting
  /-- In a call that may have switched. -/
  | returning
  /-- In the call by which a terminated worker gives the processor away. -/
  | leaving
deriving DecidableEq, Repr

structure Script where
  isBoot : Bool
  phase : Phase
  actions : List Action
deriving DecidableEq, Repr

structure Workload where
  machine : Machine
  workers : Array Worker
  contexts : Contexts Script
  /-- Which worker a process is. -/
  roles : List (Pid × Nat)
  /-- Stacks handed out. -/
  stackCount : Nat
  /-- The latest first. -/
  events : List RunEvent

/-- How a run ended. -/
inductive RunResult
  | scriptOver
  | halted (cause : Halt)

namespace Workload

abbrev Step := EStateM RunResult Workload

/-- Managed memory of the stacks. -/
def stackArea : Span := ⟨0x100000000000, 0x10000000000⟩

def stackSize : Nat := 0x20000

/-- Address of the workers' code. -/
def workerEntry : UInt64 := 0xffffffff80003000

def event (e : RunEvent) : Step Unit := modify fun w => { w with events := e :: w.events }

/-- Runs a kernel operation. What it does to the hardware becomes events. -/
def kernel {α : Type} (k : Kernel α) : Step α := fun w =>
  let keep (m : Machine) : Workload :=
    { w with machine := { m with events := [] }, events := m.events.map .hardware ++ w.events }
  match k { w.machine with events := [] } with
  | .ok x m => .ok x (keep m)
  | .error halt m => .error (.halted halt) (keep m)

def me : Step (Option Pid) := do pure (← get).machine.scheduler.currentPid

def finish (e : Ending) : Step Unit := do
  event (.ending e)
  throw (.halted .sleep)

def setScript (s : Script) : Step Unit :=
  modify fun w => { w with contexts := { w.contexts with running := s } }

/-- Goes on after an operation that may have switched. A process that is entered for the first time
starts its script. -/
def land (change : Option (Switch × Landing)) : Step Unit := do
  match change with
  | none => pure ()
  | some (sw, landing) =>
    let w ← get
    let fresh (address : UInt64) : Option Script :=
      if address = workerEntry then
        ((w.roles.lookup sw.nextPid).bind fun i => w.workers[i]?).map fun worker =>
          ⟨false, .acting, worker.script⟩
      else none
    match w.contexts.change sw landing fresh with
    | none => throw (.halted .fault)
    | some contexts =>
      set { w with contexts }
      match landing with
      | .resumed => pure ()
      | .entered _ => event (.start (← me) (← get).machine.processor.rdi)

def workerPlan (worker : Worker) (stack : Nat) : ProcessPlan :=
  { ProcessPlan.kernel workerEntry worker.argument
      (VirtAddr.truncate (stackArea.base + stack * stackSize))
      (UInt64.ofNat (stackSize - worker.short)) with
    root := worker.root }

def spawn (i : Nat) : Step Unit := do
  match (← get).workers[i]? with
  | none => event .noSuchWorker
  | some worker =>
    let config := workerPlan worker (← get).stackCount
    modify fun w => { w with stackCount := w.stackCount + 1 }
    let me ← me
    let r ← kernel (Kernel.spawn (Kernel.newProcess config true))
    match r with
    | .ok pid => modify fun w => { w with roles := (pid, i) :: w.roles }
    | .error _ => pure ()
    event (.spawn me r)

/-- An action, with the rest of the script still to come. -/
def act (s : Script) : Action → Step Unit
  | .spawn i => spawn i
  | .yield => do
    event (.yield (← me))
    setScript { s with phase := .returning }
    land (← kernel Kernel.yield)
  | .tick => do
    event (.tick (← me))
    setScript { s with phase := .returning }
    land (← kernel Kernel.tick)
  | .interrupt => do
    event (.interrupt (← me))
    setScript { s with phase := .returning }
    land (← kernel Kernel.timerInterrupt)
  | .setSelf state => do
    let me ← me
    event (.setSelf me (← kernel (Kernel.setState (me.getD 0) state)))
  | .setState pid state => do
    let me ← me
    event (.setState me (← kernel (Kernel.setState (pid.getD (me.getD 0)) state)))
  | .setQuantum ticks => do
    let me ← me
    event (.setQuantum me (← kernel (Kernel.setQuantum ticks)))
  | .look pid => do
    let p := (← get).machine.scheduler.process? pid
    event (.look (← me) (p.map fun p => (p.state, p.thread.timeUsed)))
  | .halt => finish .halt
  | .unknown name => event (.unknownAction name)

/-- The end of a script. A worker terminates and gives the processor away. -/
def leave (s : Script) : Step Unit := do
  if s.isBoot then throw .scriptOver
  else
    let me ← me
    event (.exit me)
    let _ ← kernel (Kernel.setState (me.getD 0) .terminated)
    setScript { s with phase := .leaving }
    land (← kernel Kernel.yield)

def step : Step Unit := do
  let s := (← get).contexts.running
  match s.phase with
  | .returning => do
    event (.back (← me))
    setScript { s with phase := .acting }
  | .leaving => finish .stuck
  | .acting =>
    match s.actions with
    | [] => leave s
    | a :: rest => do
      setScript { s with actions := rest }
      act { s with actions := rest } a

/-- Up to `n` steps. -/
def steps : Nat → Workload → RunResult × Workload
  | 0, w => (.halted .sleep, w)
  | n + 1, w =>
    match step w with
    | .ok _ w => steps n w
    | .error r w => (r, w)

/-- Steps that no run reaches: each process of a full table, and the boot process, may take two for
every action and a few to start and to leave. -/
def bound (workers : Array Worker) (script : List Action) : Nat :=
  let longest := workers.foldl (fun n w => max n w.script.length) script.length
  (Scheduler.capacity + 2) * (2 * longest + 4)

/-- The machine on which workers run. -/
def freshMachine (filter : Option Level) (cr3 : UInt64) : Machine :=
  .off filter .zeroed stackArea cr3

/-- Sets the quantum if one is given, makes the boot process if asked to, and runs the script. -/
def run (m : Machine) (quantum : Option Nat) (bootProcess : Bool) (workers : Array Worker)
    (script : List Action) : RunResult × Workload :=
  let setUp : Step Unit := do
    match quantum with
    | none => pure ()
    | some ticks =>
      let _ ← kernel (Kernel.setQuantum ticks)
    if bootProcess then
      let _ ← kernel (Kernel.spawn (Kernel.adoptBoot true))
  match setUp ⟨m, workers, ⟨⟨true, .acting, script⟩, []⟩, [], 0, []⟩ with
  | .error r w => (r, w)
  | .ok _ w => steps (bound workers script) w

end Workload

end KernelCore
