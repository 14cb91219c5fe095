/-!
# Life cycle of a process
-/

namespace KernelCore

inductive ProcessState
  | new | ready | running | waiting | sleeping | terminated | suspended | idle
deriving DecidableEq, Repr

namespace ProcessState

def name : ProcessState → String
  | .new => "New"
  | .ready => "Ready"
  | .running => "Running"
  | .waiting => "Waiting"
  | .sleeping => "Sleeping"
  | .terminated => "Terminated"
  | .suspended => "Suspended"
  | .idle => "Idle"

def all : List ProcessState :=
  [.new, .ready, .running, .waiting, .sleeping, .terminated, .suspended, .idle]

/-- Whether a process may go from one state to the other. -/
def canBecome : ProcessState → ProcessState → Bool
  | .terminated, _ => false
  | _, .terminated => true
  | .new, .ready => true
  | .ready, .running | .idle, .running => true
  | .running, .ready | .running, .waiting | .running, .sleeping | .running, .suspended => true
  | .waiting, .ready | .sleeping, .ready | .suspended, .ready => true
  | _, _ => false

/-- Whether the scheduler may pick a process in this state. -/
def isRunnable : ProcessState → Bool
  | .ready | .idle => true
  | _ => false

@[simp] theorem terminated_canBecome (s : ProcessState) : terminated.canBecome s = false := by
  cases s <;> rfl

end ProcessState

end KernelCore
