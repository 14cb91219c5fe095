import KernelCore.Machine.Tasks

/-!
# Contexts

What each process is in the middle of. A change of process sets the running context aside under the
pid that gives way, and takes up the one that was set aside under the next pid, or a fresh one if
the processor landed at an entry.
-/

namespace KernelCore

structure Contexts (κ : Type) where
  running : κ
  suspended : List (Pid × κ)

namespace Contexts

variable {κ : Type}

/-- The suspended contexts once the running one is set aside. -/
def setAside (c : Contexts κ) : Option Pid → List (Pid × κ)
  | none => c.suspended
  | some pid => (pid, c.running) :: c.suspended.filter fun (q, _) => q != pid

/-- The contexts after a change of process; none if there is nothing to go on with. -/
def change (c : Contexts κ) (sw : Switch) (landing : Landing) (fresh : UInt64 → Option κ) :
    Option (Contexts κ) :=
  let suspended := c.setAside sw.previousPid
  let next := match landing with
    | .resumed => suspended.lookup sw.nextPid
    | .entered address => fresh address
  next.map fun running => ⟨running, suspended⟩

end Contexts

end KernelCore
