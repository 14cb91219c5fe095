import KernelCore.Halt

/-!
# Addresses

Physical addresses have 52 bits. Virtual addresses have 64, of which the upper 17 agree. Both are
numbers that carry their bound, so what is said about them is arithmetic. Pages, and the frames
that back them, have 4096 bytes.
-/

namespace KernelCore

@[ext] structure PhysAddr where
  val : Nat
  lt : val < 0x10000000000000
deriving DecidableEq, Repr

namespace PhysAddr

def ofNat? (n : Nat) : Option PhysAddr :=
  if h : n < 0x10000000000000 then some ⟨n, h⟩ else none

/-- The kernel stops where it would make an address out of a number that is too large. -/
def ofNat (n : Nat) : Except Panic PhysAddr :=
  if h : n < 0x10000000000000 then .ok ⟨n, h⟩ else .error .addressRange

/-- The sum is first a 64-bit number and then an address, and stops the kernel at either step. -/
def add (a : PhysAddr) (n : Nat) : Except Panic PhysAddr := do
  ofNat (← addWithin UInt64.size a.val n)

def isAligned (a : PhysAddr) : Bool := a.val % 4096 == 0

theorem add_eq_ok {a : PhysAddr} {n : Nat} (h : a.val + n < 0x10000000000000) :
    a.add n = .ok ⟨a.val + n, h⟩ := by
  have h' : a.val + n < 0x10000000000000000 := by omega
  rw [add, addWithin, UInt64.size, if_pos h']
  exact dif_pos h

end PhysAddr

/-- A physical frame, by its number. -/
@[ext] structure Frame where
  number : Nat
  lt : number < 0x10000000000
deriving DecidableEq, Repr

namespace Frame

def base (f : Frame) : PhysAddr := ⟨f.number * 4096, by have := f.lt; omega⟩

/-- The frame that an address lies in. -/
def containing (a : PhysAddr) : Frame := ⟨a.val / 4096, by have := a.lt; omega⟩

@[simp] theorem containing_base (f : Frame) : containing f.base = f := by
  simp [containing, base]

theorem base_containing (a : PhysAddr) : (containing a).base.val = a.val - a.val % 4096 := by
  simp only [containing, base]; omega

theorem testBit_base (f : Frame) (i : Nat) :
    f.base.val.testBit i = (decide (12 ≤ i) && f.number.testBit (i - 12)) := by
  have h : f.base.val = 2 ^ 12 * f.number := by simp only [base]; omega
  rw [h, Nat.testBit_two_pow_mul]

end Frame

@[ext] structure VirtAddr where
  val : Nat
  canonical : val < 0x800000000000 ∨ 0xffff800000000000 ≤ val ∧ val < 0x10000000000000000
deriving DecidableEq, Repr

namespace VirtAddr

def ofNat? (n : Nat) : Option VirtAddr :=
  if h : n < 0x800000000000 ∨ 0xffff800000000000 ≤ n ∧ n < 0x10000000000000000 then some ⟨n, h⟩ else none

/-- The lower 48 bits, with bit 47 copied into the bits above it. -/
def truncate (n : Nat) : VirtAddr :=
  if h : n % 0x1000000000000 < 0x800000000000 then ⟨n % 0x1000000000000, .inl h⟩
  else ⟨n % 0x1000000000000 + 0xffff000000000000, .inr (by omega)⟩

def isNull (v : VirtAddr) : Bool := v.val == 0

/-- Offset inside the page. -/
def pageOffset (v : VirtAddr) : Nat := v.val % 4096

theorem lt (v : VirtAddr) : v.val < 0x10000000000000000 := by have := v.canonical; omega

theorem truncate_of_canonical (v : VirtAddr) : truncate v.val = v := by
  obtain ⟨n, h⟩ := v
  dsimp only [truncate]
  split <;> simp only [mk.injEq] <;> omega

end VirtAddr

end KernelCore
