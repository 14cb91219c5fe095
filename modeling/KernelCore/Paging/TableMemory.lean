import KernelCore.Paging.Entry

/-!
# Memory that holds page tables

What a walk over page tables asks of the memory below it. A table may be out of reach, which an
operation reports with `none`, and an access may stop the processor.
-/

namespace KernelCore

class TableMemory (σ : Type) where
  /-- Frame of the top table. -/
  root : σ → Option Frame
  /-- Whether the table in a frame is within reach. -/
  holds : σ → Frame → Except Halt Bool
  read : σ → Frame → TableIndex → Except Halt (Option Entry)
  write : σ → Frame → TableIndex → Entry → Except Halt (Option σ)
  /-- Makes every entry of a table zero. -/
  clear : σ → Frame → Except Halt (Option σ)
  /-- Drops what is cached about a page. -/
  invalidate : σ → VirtAddr → σ
  /-- A free frame, for a new table. -/
  allocateFrame : EStateM Halt σ (Option Frame)

end KernelCore
