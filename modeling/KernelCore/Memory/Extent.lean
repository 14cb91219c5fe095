import KernelCore.Address

/-!
# Extents of physical memory

A span of physical memory with a valid base. One that would reach past the 64-bit numbers ends at
the last of them.
-/

namespace KernelCore

structure Extent where
  base : PhysAddr
  length : UInt64
deriving DecidableEq, Repr

namespace Extent

/-- First address past the extent. -/
def stop (r : Extent) : Nat := min (r.base.val + r.length.toNat) 0xffffffffffffffff

def contains (r : Extent) (a : PhysAddr) : Bool := r.base.val ≤ a.val && a.val < r.stop

def overlaps (r s : Extent) : Bool := r.base.val < s.stop && s.base.val < r.stop

/-- Number of whole frames. -/
def frameCount (r : Extent) : Nat := r.length.toNat / 4096

theorem contains_iff {r : Extent} {a : PhysAddr} :
    r.contains a = true ↔ r.base.val ≤ a.val ∧ a.val < r.stop := by simp [contains]

theorem overlaps_iff {r s : Extent} :
    r.overlaps s = true ↔ r.base.val < s.stop ∧ s.base.val < r.stop := by simp [overlaps]

/-- The last 64-bit number ends no extent below an address. -/
theorem lt_stop_iff {r : Extent} {a : PhysAddr} :
    a.val < r.stop ↔ a.val < r.base.val + r.length.toNat := by
  have hlt := a.lt
  rw [stop]
  omega

theorem overlaps_iff_lt {r s : Extent} : r.overlaps s = true ↔
    r.base.val < s.base.val + s.length.toNat ∧ s.base.val < r.base.val + r.length.toNat := by
  rw [overlaps_iff, lt_stop_iff, lt_stop_iff]

theorem overlaps_comm (r s : Extent) : r.overlaps s = s.overlaps r :=
  Bool.and_comm _ _

end Extent

end KernelCore
