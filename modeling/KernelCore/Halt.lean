/-!
# Ways to stop

A kernel operation either yields a value or stops the processor for good. A `Panic` is raised by
the kernel's own checks; the other causes come from the hardware.
-/

namespace KernelCore

inductive Panic
  | addOverflow
  | addressRange
  /-- An exception from which there is no way back, with the report that is printed for it. -/
  | exception (report : String)
deriving DecidableEq, Repr

def Panic.message : Panic → String
  | .addOverflow => "attempt to add with overflow"
  | .addressRange => "physical addresses must not have any bits in the range 52 to 64 set"
  | .exception report => report

inductive Halt
  | panic (cause : Panic)
  /-- An access to memory that is not there. -/
  | fault
  /-- The processor sleeps and nothing is left to wake it. -/
  | sleep
deriving DecidableEq, Repr

/-- Addition of numbers below a limit: a sum that is not below it stops the kernel. -/
def addWithin (limit a b : Nat) : Except Panic Nat :=
  if a + b < limit then .ok (a + b) else .error .addOverflow

theorem addWithin_eq_ok_iff {limit a b c : Nat} :
    addWithin limit a b = .ok c ↔ a + b < limit ∧ c = a + b := by
  unfold addWithin
  split <;> simp only [Except.ok.injEq, reduceCtorEq, false_iff] <;> omega

end KernelCore
