import KernelCore.Frames.Allocator
import KernelCore.Memory.Basic
import KernelCore.Memory.DirectMap

/-!
# Allocators whose bitmap lies in memory

The kernel keeps the bitmap of its allocator in the memory that it manages, where the direct map
leads to it. Such an allocator is worked on by loading it, and stored again afterwards.
-/

namespace KernelCore

structure ResidentAllocator where
  region : Extent
  bitmapRegion : Extent
  /-- Address of the bitmap's first byte. -/
  storage : VirtAddr
  free : Nat
deriving DecidableEq, Repr

namespace ResidentAllocator

/-- Length of the bitmap. -/
def size (r : ResidentAllocator) : Nat := bitmapSize r.region.frameCount

def load (r : ResidentAllocator) (m : Memory) : FrameAllocator :=
  { region := r.region
    bitmapRegion := r.bitmapRegion
    bitmap := ⟨(m.bytes r.storage.val r.size).toArray⟩
    fits := by simp [Memory.bytes, size, bitmapSize]; omega
    free := r.free }

def store (r : ResidentAllocator) (a : FrameAllocator) (m : Memory) : ResidentAllocator × Memory :=
  ({ r with free := a.free }, m.setBytes r.storage.val a.bitmap.bytes.toList)

/-- An allocator over `region` with its bitmap at the start of `bitmapRegion`. The bytes that are
cleared must lie in the memory that is there. -/
def placed (region bitmapRegion : Extent) (map : DirectMap) (ram : Span) (m : Memory) :
    Except Halt (Except FrameError (ResidentAllocator × Memory)) :=
  match map.toVirt bitmapRegion.base with
  | .error stop => .error (.panic stop)
  | .ok storage =>
    let needed := bitmapSize region.frameCount
    match FrameAllocator.flaw? region bitmapRegion (min needed bitmapRegion.length.toNat) with
    | some e => .ok (.error e)
    | none =>
      if ram.covers storage.val needed then
        .ok (.ok (⟨region, FrameAllocator.bitmapPart region bitmapRegion, storage,
          region.frameCount⟩, m.clear storage.val needed))
      else .error .fault

end ResidentAllocator

end KernelCore
