import KernelCore.Console
import KernelCore.Paging.TableMemory

/-!
# Page mapper

Maps and unmaps pages in the tables below the root. `leaf` is the walk that only reads; `map` makes
the tables that are missing on its way, and leaves those behind that it made when it fails. A leaf
that is present is never overwritten.
-/

namespace KernelCore

inductive PagingError
  /-- A zero address. -/
  | null
  /-- No frame for a table below this level. -/
  | noMemory (level : LinkLevel)
  /-- The table of this level is out of reach, or its entry cannot be followed. -/
  | invalidTable (level : LinkLevel)
  | alreadyMapped (page : VirtAddr) (existing : PhysAddr)
  | notMapped
deriving DecidableEq, Repr

namespace PagingError

def message : PagingError → String
  | .null => "Null address"
  | .noMemory _ => "Out of frames for page tables"
  | .invalidTable level => "Invalid " ++ level.name ++ " table"
  | .alreadyMapped _ _ => "Page already mapped"
  | .notMapped => "Page not mapped"

/-- The record that is logged when the error arises. -/
def record? : PagingError → Option Record
  | .noMemory level => some ⟨.warn, "No frame left for a " ++ level.name ++ " child table"⟩
  | .alreadyMapped page existing => some ⟨.warn,
      "Refusing to remap VirtAddr(" ++ Text.hex page.val ++ "), already mapped to PhysAddr(" ++
        Text.hex existing.val ++ ")"⟩
  | _ => none

end PagingError

namespace Paging

variable {σ : Type} [TableMemory σ]

/-- A walk that only reads. -/
abbrev Lookup := ExceptT PagingError (Except Halt)

/-- A walk that may change the tables. What it changed before an error stays. -/
abbrev Walk (σ : Type) := ExceptT PagingError (EStateM Halt σ)

def entry (s : σ) (table : Frame) (i : TableIndex) (level : LinkLevel) : Lookup Entry :=
  match TableMemory.read s table i with
  | .error halt => .error halt
  | .ok none => throw (.invalidTable level)
  | .ok (some e) => pure e

/-- The table that an entry links to. -/
def target (e : Entry) (level : LinkLevel) : Except PagingError Frame :=
  if e.isPresent && !e.isHuge then .ok (.containing e.address) else .error (.invalidTable level)

def rootTable (s : σ) : Lookup Frame :=
  match TableMemory.root s with
  | none => throw (.invalidTable .pml4)
  | some f =>
    match TableMemory.holds s f with
    | .error halt => .error halt
    | .ok held => if held then pure f else throw (.invalidTable .pml4)

def follow (s : σ) (v : VirtAddr) (table : Frame) (level : LinkLevel) : Lookup Frame := do
  let e ← entry s table (level.index v) level
  ExceptT.mk (.ok (target e level))

/-- The last table on the way to a page. -/
def leafTable (s : σ) (v : VirtAddr) : Lookup Frame := do
  let pml4 ← rootTable s
  let pdpt ← follow s v pml4 .pml4
  let pd ← follow s v pdpt .pdpt
  follow s v pd .pd

def leaf (s : σ) (v : VirtAddr) : Lookup Entry := do
  let pt ← leafTable s v
  entry s pt v.leafIndex .pd

/-- The address inside a page's frame. -/
def physicalAddress (e : Entry) (v : VirtAddr) : PhysAddr :=
  ⟨e.address.val + v.pageOffset, by
    have h := Nat.mod_lt (e.bits.toNat / 4096) (Nat.two_pow_pos 40)
    simp only [Entry.address, VirtAddr.pageOffset]; omega⟩

def translate (s : σ) (v : VirtAddr) : Except Halt (Option PhysAddr) :=
  match leaf s v with
  | .error halt => .error halt
  | .ok (.error _) => .ok none
  | .ok (.ok e) => .ok (if e.isPresent then some (physicalAddress e v) else none)

/-- Flags of a page's leaf, whether present or not. -/
def leafFlags (s : σ) (v : VirtAddr) : Except Halt (Option UInt64) :=
  match leaf s v with
  | .error halt => .error halt
  | .ok (.error _) => .ok none
  | .ok (.ok e) => .ok (some e.flags)

def look {α : Type} (q : σ → Lookup α) : Walk σ α := fun s =>
  match q s with
  | .error halt => .error halt s
  | .ok r => .ok r s

/-- A change to a table, which may turn out to be out of reach. -/
def change (f : σ → Except Halt (Option σ)) (level : LinkLevel) : Walk σ Unit := fun s =>
  match f s with
  | .error halt => .error halt s
  | .ok none => .ok (.error (.invalidTable level)) s
  | .ok (some s') => .ok (.ok ()) s'

/-- The table that a page's entry links to, made and linked if the entry is not present. -/
def followOrMake (v : VirtAddr) (table : Frame) (level : LinkLevel) : Walk σ Frame := do
  let e ← look (entry · table (level.index v) level)
  if e.isPresent then
    look fun _ => .ok (target e level)
  else
    match ← (TableMemory.allocateFrame : EStateM Halt σ (Option Frame)) with
    | none => throw (.noMemory level)
    | some f =>
      change (TableMemory.clear · f) level
      change (TableMemory.write · table (level.index v) (.link f)) level
      pure f

def map (v : VirtAddr) (p : PhysAddr) (attributes : UInt64) : Walk σ Unit := do
  if v.isNull || p.val == 0 then throw .null
  else
    let pml4 ← look rootTable
    let pdpt ← followOrMake v pml4 .pml4
    let pd ← followOrMake v pdpt .pdpt
    let pt ← followOrMake v pd .pd
    let e ← look (entry · pt v.leafIndex .pd)
    if e.isPresent then throw (.alreadyMapped v e.address)
    else
      change (TableMemory.write · pt v.leafIndex (.leaf p attributes)) .pd
      modify (TableMemory.invalidate · v)

/-- Takes the present bit from a page's leaf. Tables are left in place. -/
def unmap (v : VirtAddr) : Walk σ Unit := do
  if v.isNull then throw .null
  else
    let pt ← look (leafTable · v)
    let e ← look (entry · pt v.leafIndex .pd)
    if e.isPresent then
      change (TableMemory.write · pt v.leafIndex e.withdrawn) .pd
      modify (TableMemory.invalidate · v)
    else throw .notMapped

end Paging

end KernelCore
