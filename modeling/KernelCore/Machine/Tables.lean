import KernelCore.Machine.Basic
import KernelCore.Paging.Mapper

/-!
# Page tables in memory

The tables that the processor uses, reached through the direct map. The table at virtual address
zero does not count as one, and an access outside the managed memory stops the processor.
-/

namespace KernelCore

namespace Machine

/-- Address of the table in a frame. -/
def tableAddress? (m : Machine) (f : Frame) : Except Halt (Option Nat) :=
  match m.mapper with
  | none => .ok none
  | some map =>
    match map.toVirt f.base with
    | .error stop => .error (.panic stop)
    | .ok v => .ok (if v.isNull then none else some v.val)

/-- The frame in `cr3`, whose other bits are flags. -/
def topTable (m : Machine) : Frame :=
  ⟨m.processor.cr3.toNat / 4096 % 0x10000000000, Nat.mod_lt _ (by decide)⟩

def readEntry (m : Machine) (f : Frame) (i : TableIndex) : Except Halt (Option Entry) :=
  match m.tableAddress? f with
  | .error halt => .error halt
  | .ok none => .ok none
  | .ok (some a) =>
    if m.ram.covers (a + 8 * i.val) 8 then .ok (some ⟨m.memory.word (a + 8 * i.val)⟩)
    else .error .fault

def writeEntry (m : Machine) (f : Frame) (i : TableIndex) (e : Entry) :
    Except Halt (Option Machine) :=
  match m.tableAddress? f with
  | .error halt => .error halt
  | .ok none => .ok none
  | .ok (some a) =>
    if m.ram.covers (a + 8 * i.val) 8 then
      .ok (some { m with memory := m.memory.setWord (a + 8 * i.val) e.bits })
    else .error .fault

def clearTable (m : Machine) (f : Frame) : Except Halt (Option Machine) :=
  match m.tableAddress? f with
  | .error halt => .error halt
  | .ok none => .ok none
  | .ok (some a) =>
    if m.ram.covers a 4096 then .ok (some { m with memory := m.memory.clear a 4096 })
    else .error .fault

end Machine

namespace Kernel

/-- Runs an operation on the frame allocator, if there is one. -/
def onFrames {α : Type} (f : EStateM Panic FrameAllocator α) : Kernel (Option α) := fun m =>
  match m.frames with
  | none => .ok none m
  | some r =>
    match f (r.load m.memory) with
    | .ok x a =>
      let (r, memory) := r.store a m.memory
      .ok (some x) { m with frames := some r, memory }
    | .error stop a =>
      let (r, memory) := r.store a m.memory
      .error (.panic stop) { m with frames := some r, memory }

/-- The lowest free frame. -/
def allocateFrame : Kernel (Option Frame) := do
  match ← onFrames FrameAllocator.allocateFrame with
  | some f => pure f
  | none => pure none

def allocateRun (size : Nat) : Kernel (Except FrameError PhysAddr) := do
  match ← onFrames (FrameAllocator.allocate size) with
  | some r => pure r
  | none => pure (.error .outOfFrames)

def releaseFrame (p : PhysAddr) : Kernel Unit := do
  let _ ← onFrames (modify fun a => a.deallocate p)

end Kernel

namespace Machine

instance : TableMemory Machine where
  root m := some m.topTable
  holds m f := (m.tableAddress? f).map Option.isSome
  read := readEntry
  write := writeEntry
  clear := clearTable
  invalidate m v := { m with events := .invalidatePage v :: m.events }
  allocateFrame := Kernel.allocateFrame

end Machine

end KernelCore
