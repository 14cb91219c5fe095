import KernelCore.Interrupts.Exception
import KernelCore.Machine.Tasks

/-!
# Interrupts on a machine
-/

namespace KernelCore.Kernel

/-- Loads the descriptor tables. Exceptions are handled from here on. -/
def loadDescriptorTables : Kernel Unit := emit (Hardware.loadSegments ++ Hardware.loadGates)

/-- Remaps the interrupt controllers and starts the timer. -/
def startTimer (hz : UInt32) : Kernel Unit := do
  let divisor := Timer.divisor hz
  emit (Hardware.remapControllers ++ Hardware.startTimer divisor)
  log .info ("PIT running at " ++ toString hz.toNat ++ " Hz (divisor " ++
    toString divisor.toNat ++ ")")

def startKernelTimer : Kernel Unit := startTimer Timer.kernelFrequency

def endOfInterrupt (vector : Nat) : Kernel Unit := emit (Hardware.endOfInterrupt vector)

/-- Handles the timer's interrupt. It is acknowledged first, since a switch comes back late. -/
def timerInterrupt : Kernel (Option (Switch × Landing)) := do
  endOfInterrupt Timer.vector
  tick

/-- Handles an exception. Only a breakpoint returns. While the scheduler is locked the current
process is not known. -/
def handleException (e : Exception) (f : InterruptFrame) (locked : Bool) : Kernel Unit := do
  let pid ← if locked then pure none else currentPid
  let report := e.report f pid
  if e = .breakpoint then log .warn report else throw (.panic (.exception report))

end KernelCore.Kernel
