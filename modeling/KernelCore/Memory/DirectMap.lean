import KernelCore.Address

/-!
# Direct map

All physical memory is visible at a fixed virtual offset. Numbers from the offset on are taken to be
inside the map already, numbers below it to be physical.
-/

namespace KernelCore

structure DirectMap where
  offset : UInt64
deriving DecidableEq, Repr

namespace DirectMap

def toVirt (m : DirectMap) (p : PhysAddr) : Except Panic VirtAddr :=
  if m.offset.toNat ≤ p.val then .ok (VirtAddr.truncate p.val)
  else do pure (VirtAddr.truncate (← addWithin UInt64.size m.offset.toNat p.val))

def toPhys? (m : DirectMap) (v : VirtAddr) : Option PhysAddr :=
  if v.val < m.offset.toNat then PhysAddr.ofNat? v.val
  else PhysAddr.ofNat? (v.val - m.offset.toNat)

end DirectMap

end KernelCore
