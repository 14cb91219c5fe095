import KernelCore.Text.Display

/-!
# Registers

The register file of a processor, and of a process that is not running. Its order is that of the
words in which it is stored.
-/

namespace KernelCore

inductive Register
  | rax | rbx | rcx | rdx | rsi | rdi | r8 | r9 | r10 | r11 | r12 | r13 | r14 | r15
  | rbp | rsp | rip | rflags | cr3
deriving DecidableEq, Repr

namespace Register

def all : List Register :=
  [.rax, .rbx, .rcx, .rdx, .rsi, .rdi, .r8, .r9, .r10, .r11, .r12, .r13, .r14, .r15,
    .rbp, .rsp, .rip, .rflags, .cr3]

theorem mem_all (r : Register) : r ∈ all := by cases r <;> decide

def name : Register → String
  | .rax => "rax" | .rbx => "rbx" | .rcx => "rcx" | .rdx => "rdx" | .rsi => "rsi" | .rdi => "rdi"
  | .r8 => "r8" | .r9 => "r9" | .r10 => "r10" | .r11 => "r11" | .r12 => "r12" | .r13 => "r13"
  | .r14 => "r14" | .r15 => "r15" | .rbp => "rbp" | .rsp => "rsp" | .rip => "rip"
  | .rflags => "rflags" | .cr3 => "cr3"

/-- Byte offset in a stored register file. -/
def offset : Register → Nat
  | .rax => 0 | .rbx => 8 | .rcx => 16 | .rdx => 24 | .rsi => 32 | .rdi => 40
  | .r8 => 48 | .r9 => 56 | .r10 => 64 | .r11 => 72 | .r12 => 80 | .r13 => 88
  | .r14 => 96 | .r15 => 104 | .rbp => 112 | .rsp => 120 | .rip => 128
  | .rflags => 136 | .cr3 => 144

end Register

structure Registers where
  rax : UInt64
  rbx : UInt64
  rcx : UInt64
  rdx : UInt64
  rsi : UInt64
  rdi : UInt64
  r8 : UInt64
  r9 : UInt64
  r10 : UInt64
  r11 : UInt64
  r12 : UInt64
  r13 : UInt64
  r14 : UInt64
  r15 : UInt64
  rbp : UInt64
  rsp : UInt64
  rip : UInt64
  rflags : UInt64
  /-- Physical address of the top page table; a stored zero means to keep the one that is loaded. -/
  cr3 : UInt64
deriving DecidableEq, Repr

namespace Registers

def get (f : Registers) : Register → UInt64
  | .rax => f.rax | .rbx => f.rbx | .rcx => f.rcx | .rdx => f.rdx | .rsi => f.rsi | .rdi => f.rdi
  | .r8 => f.r8 | .r9 => f.r9 | .r10 => f.r10 | .r11 => f.r11 | .r12 => f.r12 | .r13 => f.r13
  | .r14 => f.r14 | .r15 => f.r15 | .rbp => f.rbp | .rsp => f.rsp | .rip => f.rip
  | .rflags => f.rflags | .cr3 => f.cr3

def set (f : Registers) (r : Register) (w : UInt64) : Registers :=
  match r with
  | .rax => { f with rax := w } | .rbx => { f with rbx := w } | .rcx => { f with rcx := w }
  | .rdx => { f with rdx := w } | .rsi => { f with rsi := w } | .rdi => { f with rdi := w }
  | .r8 => { f with r8 := w } | .r9 => { f with r9 := w } | .r10 => { f with r10 := w }
  | .r11 => { f with r11 := w } | .r12 => { f with r12 := w } | .r13 => { f with r13 := w }
  | .r14 => { f with r14 := w } | .r15 => { f with r15 := w } | .rbp => { f with rbp := w }
  | .rsp => { f with rsp := w } | .rip => { f with rip := w } | .rflags => { f with rflags := w }
  | .cr3 => { f with cr3 := w }

/-- The register file with the given contents. -/
def ofFn (w : Register → UInt64) : Registers :=
  ⟨w .rax, w .rbx, w .rcx, w .rdx, w .rsi, w .rdi, w .r8, w .r9, w .r10, w .r11, w .r12, w .r13,
    w .r14, w .r15, w .rbp, w .rsp, w .rip, w .rflags, w .cr3⟩

def zero : Registers := ofFn fun _ => 0

@[simp] theorem get_ofFn (w : Register → UInt64) (r : Register) : (ofFn w).get r = w r := by
  cases r <;> rfl

@[simp] theorem ofFn_get (f : Registers) : ofFn f.get = f := rfl

theorem get_set (f : Registers) (r s : Register) (w : UInt64) :
    (f.set r w).get s = if r = s then w else f.get s := by
  cases r <;> cases s <;> rfl

theorem ext_get {f g : Registers} (h : ∀ r, f.get r = g.get r) : f = g := by
  rw [← ofFn_get f, ← ofFn_get g, funext h]

/-- Numbers fill 16 characters with the `0x`. -/
def display (f : Registers) : Text.Display :=
  .record "Registers"
    (Register.all.map fun r => (r.name, .atom (Text.hexFilled 16 (f.get r).toNat)))

end Registers

end KernelCore
