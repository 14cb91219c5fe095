import KernelCore.Halt
import Mathlib.Data.Nat.Notation

/-!
# Guarded calculation

A calculation that looks at every sum, divisor and slot before it uses it, and stops at the first one
that is no good. Where it goes through, the numbers of the processor are large enough for what is
calculated without a look.
-/

namespace KernelCore

/-- What stops a guarded calculation. -/
inductive Misuse
  | sum (cause : Panic)
  | zeroDivisor
  | noSuchSlot
deriving DecidableEq, Repr

/-- A sum that has to stay below a limit. -/
def guardedSum (limit a b : ℕ) : Except Misuse ℕ := (addWithin limit a b).mapError .sum

def guardedDiv (a b : ℕ) : Except Misuse ℕ := if b = 0 then .error .zeroDivisor else .ok (a / b)

def guardedMod (a b : ℕ) : Except Misuse ℕ := if b = 0 then .error .zeroDivisor else .ok (a % b)

/-- What is in a slot of a table. -/
def guardedSlot {α : Type} (xs : Array α) (i : ℕ) : Except Misuse α :=
  match xs[i]? with
  | none => .error .noSuchSlot
  | some x => .ok x

variable {limit a b : ℕ}

theorem guardedSum_of_lt (h : a + b < limit) : guardedSum limit a b = .ok (a + b) := by
  rw [guardedSum, addWithin_eq_ok_iff.mpr ⟨h, rfl⟩]
  rfl

theorem guardedDiv_of_pos (a : ℕ) (h : 0 < b) : guardedDiv a b = .ok (a / b) :=
  if_neg (Nat.ne_of_gt h)

theorem guardedMod_of_pos (a : ℕ) (h : 0 < b) : guardedMod a b = .ok (a % b) :=
  if_neg (Nat.ne_of_gt h)

theorem guardedSlot_of_lt {α : Type} {xs : Array α} {i : ℕ} (h : i < xs.size) :
    guardedSlot xs i = .ok xs[i] := by
  simp only [guardedSlot, Array.getElem?_eq_getElem h]

end KernelCore
