import KernelCore.Machine.Interrupts
import KernelCore.Machine.MemoryManager

/-!
# Boot

Brings the kernel up from what the bootloader hands over, in order: descriptor tables, memory,
scheduler. It stops for good if something is missing that the kernel cannot run without.
-/

namespace KernelCore

structure Framebuffer where
  width : UInt64
  height : UInt64
  address : UInt64
deriving DecidableEq, Repr

/-- Entry of the bootloader's memory map. -/
structure LoaderEntry where
  base : UInt64
  length : UInt64
  type : UInt64
deriving DecidableEq, Repr

namespace LoaderEntry

/-- Numbers that the loader's protocol does not define count as reserved. -/
def kind (r : LoaderEntry) : MemoryKind :=
  match r.type.toNat with
  | 0 => .usable
  | 2 => .acpiReclaimable
  | 3 => .acpiNvs
  | 4 => .badMemory
  | 5 => .bootloaderReclaimable
  | 6 => .kernelAndModules
  | 7 => .framebuffer
  | _ => .reserved

def toMapEntry (r : LoaderEntry) : MapEntry := ⟨r.base, r.length, r.kind⟩

end LoaderEntry

/-- The bootloader's answers. -/
structure Handoff where
  /-- Zero if the loader knows the revision that was asked for. -/
  revision : Option UInt64
  framebuffers : Option (List Framebuffer)
  memoryMap : Option (List LoaderEntry)
  directMap : Option UInt64
deriving DecidableEq, Repr

/-- What is settled about a kernel before it boots. -/
structure BootOptions where
  /-- Whether a logger is installed already. -/
  logger : Bool
  /-- Whether the kernel has a heap. -/
  heap : Bool
deriving DecidableEq, Repr

/-- A kernel that is tested has a logger from before, and no heap. -/
def BootOptions.tested : BootOptions := ⟨true, false⟩

/-- The machine with a console that shows the records of a level and those of more importance. -/
def Machine.listening (m : Machine) (least : Option Level) : Machine :=
  { m with console := { m.console with filter := least } }

namespace Kernel

/-- Installs the kernel's logger, with the level of the build, unless there is one. -/
def startLogger (installed : Bool) : Kernel Unit :=
  if installed then printLine "Logger already installed"
  else modify fun m => m.listening (some .built)

def giveUp {α : Type} (reason : String) : Kernel α := do
  log .error ("Fatal: " ++ reason)
  stop

/-- An answer that the kernel cannot run without. -/
def require {α : Type} (reason : String) : Option α → Kernel α
  | some x => pure x
  | none => giveUp reason

/-- Entries of the memory map that are used. -/
def maxEntries : Nat := 256

def usedEntries (map : List LoaderEntry) : Kernel (List MapEntry) := do
  if maxEntries < map.length then
    log .warn ("Memory map has " ++ toString map.length ++ " entries, using " ++
      toString maxEntries)
  pure ((map.take maxEntries).map (·.toMapEntry))

/-- Shows an entry. Its end is worked out only if it is shown. -/
def showEntry (e : MapEntry) : Kernel Unit := do
  if (← get).console.enabled .debug then
    let stop ← checked (addWithin UInt64.size e.base.toNat e.length.toNat)
    log .debug (Text.hexFilled 18 e.base.toNat ++ "-" ++ Text.hexFilled 18 stop ++ " " ++
      e.kind.name)

def showEntries : List MapEntry → Kernel Unit
  | [] => pure ()
  | r :: rest => do
    showEntry r
    showEntries rest

def showSummary (s : MemoryTotals) : Kernel Unit :=
  log .info ("Memory: " ++ toString (s.total / 1024) ++ " KiB total, " ++
    toString (s.usable / 1024) ++ " KiB usable, " ++
    toString (s.reserved / 1024) ++ " KiB reserved")

/-- Brings the kernel up, with interrupts disabled. The code that runs becomes the process whose pid
is returned. -/
def bootWith (o : BootOptions) (h : Handoff) : Kernel Pid := do
  startLogger o.logger
  if h.revision != some 0 then giveUp "Unsupported Limine base revision"
  loadDescriptorTables
  let framebuffer ← require "No framebuffer" (h.framebuffers.bind List.head?)
  log .info ("Framebuffer " ++ toString framebuffer.width.toNat ++ "x" ++
    toString framebuffer.height.toNat ++ " at " ++ Text.hex framebuffer.address.toNat)
  let map ← require "No memory map" h.memoryMap
  let offset ← require "No HHDM offset" h.directMap
  let regions ← usedEntries map
  showEntries regions
  match ← (setUpMemoryAndHeap o.heap regions offset).run with
  | .error e => giveUp e.message
  | .ok summary =>
    showSummary summary
    match ← spawn (adoptBoot true) with
    | .error e => giveUp e.message
    | .ok pid => pure pid

/-- Brings a kernel up that is tested. -/
def boot (h : Handoff) : Kernel Pid := bootWith .tested h

end Kernel

end KernelCore
