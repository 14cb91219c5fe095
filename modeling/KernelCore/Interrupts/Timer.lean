/-!
# Timer

The programmable timer counts down from a 16-bit reload value, of which zero stands for 65536.
-/

namespace KernelCore.Timer

/-- Input frequency of the counter, in hertz. -/
def inputFrequency : UInt32 := 1193182

/-- Interrupts per second while the kernel runs. -/
def kernelFrequency : UInt32 := 100

/-- Interrupt vector of the timer. -/
def vector : Nat := 32

/-- The reload value that comes closest to `hz` interrupts per second. -/
def divisor (hz : UInt32) : UInt16 :=
  let hz := max hz 1
  let count := (inputFrequency + hz / 2) / hz
  if count ≤ 1 then 1
  else if 0x10000 ≤ count then 0
  else count.toUInt16

end KernelCore.Timer
