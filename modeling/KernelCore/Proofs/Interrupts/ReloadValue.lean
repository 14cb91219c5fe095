import KernelCore.Interrupts.Timer
import KernelCore.Proofs.Guarded
import Mathlib.Algebra.Order.Group.Unbundled.Int
import Mathlib.Order.Lattice.Nat

/-!
# The best reload value

The reload value is the input frequency over the frequency asked for, rounded to the nearest number
and then brought between 1 and 65536. A step towards the rounded quotient never leads away from the
input frequency, so that the number where such steps end, be it the quotient or the last one that the
counter has, is as good as any other. No 32-bit number on the way is too small for what is calculated;
`guardedDivisor` stops where one would be.
-/

namespace KernelCore

namespace Timer

/-! ## Guarded calculation -/

/-- Interrupts per second that the reload value is for, of which there is one at least. -/
def rate (hz : UInt32) : ℕ := max hz.toNat 1

/-- Calculates the reload value with a look at every sum and divisor. -/
def guardedDivisor (hz : UInt32) : Except Misuse UInt16 := do
  let half ← guardedDiv (rate hz) 2
  let count ← guardedDiv (← guardedSum UInt32.size inputFrequency.toNat half) (rate hz)
  pure (if count ≤ 1 then 1 else if 0x10000 ≤ count then 0 else UInt16.ofNat count)

variable {r s j k : ℕ}

theorem rate_pos (hz : UInt32) : 0 < rate hz := Nat.le_max_right hz.toNat 1

/-- Half the rate can be added to the input frequency. -/
theorem add_half_lt (hz : UInt32) : inputFrequency.toNat + rate hz / 2 < UInt32.size := by
  have hlt := hz.toNat_lt
  have hfrequency : inputFrequency.toNat = 1193182 := rfl
  rw [rate, UInt32.size]
  omega

/-- The input frequency over the rate, rounded to the nearest number. -/
def quotient (r : ℕ) : ℕ := (inputFrequency.toNat + r / 2) / r

theorem toNat_count (hz : UInt32) :
    ((inputFrequency + max hz 1 / 2) / max hz 1).toNat = quotient (rate hz) := by
  have hmax : (max hz 1).toNat = rate hz := UInt32.toNat_max hz 1
  have hhalf : (max hz 1 / 2).toNat = rate hz / 2 := by
    rw [UInt32.toNat_div, hmax]
    rfl
  rw [UInt32.toNat_div, UInt32.toNat_add, hhalf, Nat.mod_eq_of_lt (add_half_lt hz), hmax, quotient]

theorem divisor_eq (hz : UInt32) : divisor hz =
    if quotient (rate hz) ≤ 1 then 1
    else if 0x10000 ≤ quotient (rate hz) then 0 else UInt16.ofNat (quotient (rate hz)) := by
  rw [← toNat_count]
  rfl

theorem guardedDivisor_eq (hz : UInt32) : guardedDivisor hz = .ok (divisor hz) := by
  have hhalf : guardedDiv (rate hz) 2 = .ok (rate hz / 2) := guardedDiv_of_pos _ (by decide)
  have hsum := guardedSum_of_lt (add_half_lt hz)
  have hcount := guardedDiv_of_pos (inputFrequency.toNat + rate hz / 2) (rate_pos hz)
  simp only [guardedDivisor, hhalf, hsum, hcount, bind, Except.bind]
  rw [divisor_eq]
  rfl

/-! ## The period -/

/-- Pulses of the input from one interrupt to the next. The counter takes zero for the number after
its last. -/
def period (d : UInt16) : ℕ := if d = 0 then 0x10000 else d.toNat

/-- The quotient is brought to the nearest period that the counter has. -/
theorem period_divisor (hz : UInt32) :
    period (divisor hz) = max 1 (min (quotient (rate hz)) 0x10000) := by
  rw [divisor_eq]
  generalize quotient (rate hz) = count
  split
  case isTrue hsmall =>
    rw [min_eq_left (by omega), max_eq_left hsmall]
    rfl
  case isFalse hsmall =>
    split
    case isTrue hlarge =>
      rw [min_eq_right hlarge]
      rfl
    case isFalse hlarge =>
      have hkept : (UInt16.ofNat count).toNat = count := Nat.mod_eq_of_lt (by omega)
      have hne : UInt16.ofNat count ≠ 0 := by
        intro hzero
        rw [hzero] at hkept
        exact hsmall (hkept ▸ Nat.zero_le 1)
      rw [period, if_neg hne, hkept, min_eq_left (by omega), max_eq_right (by omega)]

/-! ## Distance to the input frequency -/

/-- By how many pulses in a second the input frequency is missed with interrupts that are `n` pulses
apart. -/
def miss (r n : ℕ) : ℤ := |(n * r : ℤ) - inputFrequency.toNat|

theorem miss_le_of_le_quotient (hkj : k ≤ j) (hj : j ≤ quotient r) : miss r j ≤ miss r k := by
  obtain rfl | hlt := Nat.eq_or_lt_of_le hkj
  · exact le_rfl
  -- `j * r` is half a rate past the input frequency at most, and `k * r` a whole rate further down
  have hquotient : j * r ≤ inputFrequency.toNat + r / 2 :=
    (Nat.mul_le_mul_right r hj).trans (Nat.div_mul_le_self _ _)
  have hapart : k * r + r ≤ j * r := by
    rw [← Nat.succ_mul]
    exact Nat.mul_le_mul_right r hlt
  simp only [miss, ← Int.natCast_mul, Int.abs_eq_natAbs]
  omega

theorem miss_le_of_quotient_le (hr : 0 < r) (hj : quotient r ≤ j) (hjk : j ≤ k) :
    miss r j ≤ miss r k := by
  obtain rfl | hlt := Nat.eq_or_lt_of_le hjk
  · exact le_rfl
  have hquotient : inputFrequency.toNat + r / 2 < j * r + r := by
    rw [← Nat.succ_mul]
    exact Nat.lt_mul_of_div_lt (Nat.lt_succ_of_le hj) hr
  have hapart : j * r + r ≤ k * r := by
    rw [← Nat.succ_mul]
    exact Nat.mul_le_mul_right r hlt
  simp only [miss, ← Int.natCast_mul, Int.abs_eq_natAbs]
  omega

/-- The quotient of a higher rate is no larger. -/
theorem quotient_le_quotient (hr : 0 < r) (hrs : r ≤ s) : quotient s ≤ quotient r := by
  have hs : quotient s * s ≤ inputFrequency.toNat + s / 2 := Nat.div_mul_le_self _ _
  refine (Nat.le_div_iff_mul_le hr).mpr ?_
  cases hq : quotient s with
  | zero =>
    rw [Nat.zero_mul]
    exact Nat.zero_le _
  | succ q =>
    -- `2 * q + 1` of the higher rate fit into twice the input frequency, and of the lower all the more
    rw [hq, Nat.succ_mul] at hs
    rw [Nat.succ_mul]
    have hle : q * r ≤ q * s := Nat.mul_le_mul_left q hrs
    omega

/-- A period that the counter has misses the input frequency by no more than any other. -/
structure Closest (r n : ℕ) : Prop where
  pos : 1 ≤ n
  le : n ≤ 0x10000
  miss_le : ∀ k, 1 ≤ k → k ≤ 0x10000 → miss r n ≤ miss r k

/-- What the quotient is brought to is closest: from any other period it lies in the direction of the
quotient. -/
theorem closest_quotient (hr : 0 < r) : Closest r (max 1 (min (quotient r) 0x10000)) := by
  refine ⟨by omega, by omega, fun k hpos hle => ?_⟩
  cases Nat.le_total k (max 1 (min (quotient r) 0x10000)) with
  | inl hbelow =>
    obtain heq | hlt := Nat.eq_or_lt_of_le hbelow
    · rw [← heq]
    · exact miss_le_of_le_quotient hbelow (by omega)
  | inr habove =>
    obtain heq | hlt := Nat.eq_or_lt_of_le habove
    · rw [heq]
    · exact miss_le_of_quotient_le hr (by omega) habove

/-- The reload value is the best that the counter can take. For every frequency that is asked for, no
sum on the way to it has more than 32 bits and no divisor is zero; its period is one that the counter
has and, of all these, misses the input frequency by the least; and a higher frequency never has a
longer period. -/
theorem reload_value_is_best (hz : UInt32) :
    guardedDivisor hz = .ok (divisor hz) ∧
      Closest (rate hz) (period (divisor hz)) ∧
      ∀ hz', hz ≤ hz' → period (divisor hz') ≤ period (divisor hz) := by
  refine ⟨guardedDivisor_eq hz, ?_, fun hz' hle => ?_⟩
  · rw [period_divisor]
    exact closest_quotient (rate_pos hz)
  · have hrate : rate hz ≤ rate hz' := max_le_max_right 1 (UInt32.le_iff_toNat_le.mp hle)
    have hquotient := quotient_le_quotient (rate_pos hz) hrate
    rw [period_divisor, period_divisor]
    omega

/-- From 18 interrupts per second down the counter has no longer period. -/
example : period (divisor 19) = 62799 ∧ period (divisor 18) = 0x10000 ∧
    period (divisor 0) = 0x10000 := by decide

/-- From 795454 to 795455 interrupts per second the quotient falls below one and a half, and the
period from two pulses to one, which is then the better by a single pulse. -/
theorem reload_value_is_best_at_one_and_a_half :
    period (divisor 795454) = 2 ∧ period (divisor 795455) = 1 ∧
      period (divisor 795455) ≤ period (divisor 795454) ∧
      miss 795455 1 = 397727 ∧ miss 795455 2 = 397728 ∧ miss 795455 1 ≤ miss 795455 2 := by
  obtain ⟨-, -, hshorter⟩ := reload_value_is_best 795454
  obtain ⟨-, hclosest, -⟩ := reload_value_is_best 795455
  have hone : period (divisor 795455) = 1 := by decide
  have hmiss := hclosest.miss_le 2 (by decide) (by decide)
  rw [hone] at hmiss
  exact ⟨by decide, hone, hshorter 795455 (by decide), rfl, rfl, hmiss⟩

end Timer

end KernelCore
