import KernelCore.Machine.Tables

/-!
# Memory manager

Setting up memory from the boot memory map, and mapping pages in the address space that is loaded,
with tables from the frame allocator.
-/

namespace KernelCore

inductive MemoryError
  | layout (e : LayoutError)
  | frame (e : FrameError)
  | paging (e : PagingError)
  | outOfFrames
  | notReady
deriving DecidableEq, Repr

def MemoryError.message : MemoryError → String
  | .layout e => "Memory map: " ++ e.message
  | .frame e => "Frame allocator: " ++ e.message
  | .paging e => "Paging: " ++ e.message
  | .outOfFrames => "Out of physical frames"
  | .notReady => "Memory manager not initialized"

namespace Kernel

/-- The register of extended features, and its bit that lets pages be marked as not executable. -/
def eferNumber : Nat := 0xc0000080

def noExecuteEnable : UInt64 := 0x800

/-- The direct map that was set up first. -/
def directMapOf (offset : UInt64) : Kernel DirectMap := do
  match (← get).directMap with
  | some map => pure map
  | none =>
    let map : DirectMap := ⟨offset⟩
    modify fun m => { m with directMap := some map }
    pure map

def enableNoExecute : Kernel Unit := do
  modify fun m => { m with efer := m.efer ||| noExecuteEnable }
  emit [.writeModelRegister eferNumber (← get).efer]

/-- An allocator for the pool, with its bitmap cleared. -/
def buildFrames (pool : FramePool) (map : DirectMap) :
    Kernel (Except FrameError ResidentAllocator) := fun m =>
  match ResidentAllocator.placed pool.frames pool.bitmap map m.ram m.memory with
  | .error halt => .error halt m
  | .ok (.error e) => .ok (.error e) m
  | .ok (.ok (r, memory)) => .ok (.ok r) { m with memory }

/-- Sets up the frame allocator and the page mapper. -/
def setUpMemory (entries : List MapEntry) (offset : UInt64) :
    ExceptT MemoryError Kernel MemoryTotals := do
  let summary ← (checked (MemoryTotals.ofEntries entries) : Kernel _)
  match ← (checked (FramePool.ofEntries entries).run : Kernel _) with
  | .error e => throw (.layout e)
  | .ok pool =>
    let map ← (directMapOf offset : Kernel _)
    match ← (buildFrames pool map : Kernel _) with
    | .error e => throw (.frame e)
    | .ok r =>
      (log .info ("Frame pool at " ++ Text.hex pool.frames.base.val ++ ", " ++
        toString r.region.frameCount ++ " frames, bitmap at " ++
        Text.hex pool.bitmap.base.val) : Kernel Unit)
      modify fun m => { m with frames := some r, mapper := some map }
      (enableNoExecute : Kernel Unit)
      pure summary

/-- A walk over the tables that are loaded, with the record of what went wrong. -/
def walk {α : Type} (w : Paging.Walk Machine α) : ExceptT MemoryError Kernel α := do
  match ← (w.run : Kernel _) with
  | .ok x => pure x
  | .error e =>
    match e.record? with
    | some r => (record r : Kernel Unit)
    | none => pure ()
    throw (.paging e)

def mapPage (v : VirtAddr) (p : PhysAddr) (attributes : UInt64) :
    ExceptT MemoryError Kernel Unit := do
  let m ← get
  if m.mapper.isSome && m.frames.isSome then walk (Paging.map v p attributes)
  else throw .notReady

/-- Removes a page. The frame behind it is left to the caller. -/
def unmapPage (v : VirtAddr) : ExceptT MemoryError Kernel Unit := do
  if (← get).mapper.isSome then walk (Paging.unmap v) else throw .notReady

def translate (v : VirtAddr) : Kernel (Option PhysAddr) := do
  let m ← get
  if m.mapper.isSome then guarded (Paging.translate m v) else pure none

/-- Address of physical memory in the direct map, once there is one. -/
def directAddress (p : PhysAddr) : Kernel (Option VirtAddr) := do
  match (← get).directMap with
  | some map => some <$> checked (map.toVirt p)
  | none => pure none

end Kernel

namespace Heap

def start : Nat := 0xffffffff00000000

def size : Nat := 1024 * 1024

/-- Writable and not executable. -/
def attributes : UInt64 := 0x8000000000000002

/-- Backs the `n` pages from number `i` of the heap on with fresh frames. -/
def mapPages : (n i : Nat) → ExceptT MemoryError Kernel Unit
  | 0, _ => pure ()
  | n + 1, i => do
    match ← (Kernel.allocateFrame : Kernel _) with
    | none => throw .outOfFrames
    | some f =>
      Kernel.mapPage (VirtAddr.truncate (start + i * 4096)) f.base attributes
      mapPages n (i + 1)

end Heap

/-- Backs every page of the kernel's heap. -/
def Kernel.backHeap : ExceptT MemoryError Kernel Unit := do
  Heap.mapPages (Heap.size / 4096) 0
  (log .info ("Heap mapped at " ++ Text.hex Heap.start ++ ", " ++ toString (Heap.size / 1024) ++
    " KiB") : Kernel Unit)

/-- Sets up memory, and then the heap if there is to be one. -/
def Kernel.setUpMemoryAndHeap (heap : Bool) (entries : List MapEntry) (offset : UInt64) :
    ExceptT MemoryError Kernel MemoryTotals := do
  let summary ← setUpMemory entries offset
  if heap then backHeap
  pure summary

end KernelCore
