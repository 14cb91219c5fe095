import KernelCore.Machine.Basic
import Mathlib

/-!
# Running operations of the kernel
-/

namespace KernelCore

namespace Kernel

variable {α : Type} {m m' : Machine} {x : Kernel α} {a : α}

/-- What an operation leaves behind, also where it stops the processor. -/
def after (x : Kernel α) (m : Machine) : Machine :=
  match x m with
  | .ok _ m' => m'
  | .error _ m' => m'

/-- What an operation returns, unless it stops the processor. -/
def answer? (x : Kernel α) (m : Machine) : Option α :=
  match x m with
  | .ok a _ => some a
  | .error _ _ => none

theorem eq_ok_of_answer? (h : answer? x m = some a) : x m = .ok a (after x m) := by
  rw [answer?] at h
  rw [after]
  cases hx : x m with
  | ok b m' =>
    rw [hx] at h
    obtain rfl := Option.some.inj h
    rfl
  | error halt m' => simp [hx] at h

theorem get_eq (m : Machine) : (get : Kernel Machine) m = .ok m m :=
  rfl

theorem checked_ok (a : α) (m : Machine) : checked (.ok a) m = .ok a m :=
  rfl

theorem checked_error (stop : Panic) (m : Machine) :
    (checked (.error stop) : Kernel α) m = .error (.panic stop) m :=
  rfl

/-- After an operation that returns, the rest is run from where it left the machine. -/
theorem bind_eq_ok {β : Type} {f : α → Kernel β} (h : x m = .ok a m') :
    (x >>= f) m = f a m' := by
  simp only [bind, EStateM.bind, h]

theorem bind_eq_error {β : Type} {f : α → Kernel β} {halt : Halt} (h : x m = .error halt m') :
    (x >>= f) m = .error halt m' := by
  simp only [bind, EStateM.bind, h]

end Kernel

end KernelCore
