import KernelCore.Memory.Extent

/-!
# Boot memory map

The entries by which the bootloader describes memory: plain numbers with a kind. Their totals are
64-bit sums.
-/

namespace KernelCore

inductive MemoryKind
  | usable | reserved | acpiReclaimable | acpiNvs | badMemory | bootloaderReclaimable
  | kernelAndModules | framebuffer
deriving DecidableEq, Repr

def MemoryKind.name : MemoryKind → String
  | .usable => "Usable"
  | .reserved => "Reserved"
  | .acpiReclaimable => "AcpiReclaimable"
  | .acpiNvs => "AcpiNvs"
  | .badMemory => "BadMemory"
  | .bootloaderReclaimable => "BootloaderReclaimable"
  | .kernelAndModules => "KernelAndModules"
  | .framebuffer => "Framebuffer"

def MemoryKind.all : List MemoryKind :=
  [.usable, .reserved, .acpiReclaimable, .acpiNvs, .badMemory, .bootloaderReclaimable,
    .kernelAndModules, .framebuffer]

structure MapEntry where
  base : UInt64
  length : UInt64
  kind : MemoryKind
deriving DecidableEq, Repr

namespace MapEntry

def isUsable (e : MapEntry) : Bool := e.kind == .usable

/-- The memory that an entry describes. A base that is no physical address stops the kernel. -/
def extent (e : MapEntry) : Except Panic Extent := do
  pure ⟨← PhysAddr.ofNat e.base.toNat, e.length⟩

end MapEntry

/-- Byte totals of a memory map. -/
structure MemoryTotals where
  total : Nat
  usable : Nat
deriving DecidableEq, Repr

namespace MemoryTotals

def reserved (s : MemoryTotals) : Nat := s.total - s.usable

/-- Sum of the lengths, as a 64-bit number. -/
def sumLengths (entries : List MapEntry) : Except Panic Nat :=
  entries.foldlM (fun sum e => addWithin UInt64.size sum e.length.toNat) 0

def ofEntries (entries : List MapEntry) : Except Panic MemoryTotals := do
  let total ← sumLengths entries
  let usable ← sumLengths (entries.filter (·.isUsable))
  pure ⟨total, usable⟩

end MemoryTotals

end KernelCore
