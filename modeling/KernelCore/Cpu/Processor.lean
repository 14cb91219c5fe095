import KernelCore.Memory.Basic
import KernelCore.Process.Registers

/-!
# Processor

The instructions of which the context switch consists, over a register file and memory. `rdi` points
at a stored register file; instructions have addresses one apart. A comparison sets the zero flag
and leaves the other flags alone, which nothing reads.
-/

namespace KernelCore

namespace Registers

def store (f : Registers) (m : Memory) (a : Nat) : Memory :=
  Register.all.foldl (fun m r => m.setWord (a + r.offset) (f.get r)) m

def load (m : Memory) (a : Nat) : Registers := ofFn fun r => m.word (a + r.offset)

def zeroFlag : UInt64 := 0x40

def interruptFlag : UInt64 := 0x200

def interruptsEnabled (f : Registers) : Bool := f.rflags &&& interruptFlag != 0

def withInterrupts (f : Registers) (on : Bool) : Registers :=
  { f with rflags := if on then f.rflags ||| interruptFlag else f.rflags &&& ~~~interruptFlag }

end Registers

/-- The state of a processor that executes. -/
structure Processor where
  registers : Registers
  memory : Memory
  /-- The memory that is there. -/
  spans : List Span
  /-- Address spaces that were loaded, the latest first. -/
  loads : List UInt64

inductive Instruction
  /-- Store a register into a field of the register file at `rdi`. -/
  | save (source field : Register)
  /-- Load a register from a field of the register file at `rdi`. -/
  | restore (target field : Register)
  | move (target source : Register)
  /-- Take the register's value as the address space. -/
  | loadSpace (source : Register)
  /-- Put the address of an instruction into a register. -/
  | addressOf (target : Register) (position : Nat)
  | push (source : Register)
  /-- Push a field of the register file at `rdi`. -/
  | pushField (field : Register)
  | pop (target : Register)
  /-- Set the zero flag if two registers agree. -/
  | compare (left right : Register)
  /-- Set the zero flag if a register is zero. -/
  | test (register : Register)
  | jump (position : Nat)
  | jumpIfZeroFlag (position : Nat)
  | ret
deriving DecidableEq, Repr

namespace Processor

/-- Address of the first instruction. -/
def codeBase : UInt64 := 0xffffffff80000000

def address (position : Nat) : UInt64 := codeBase + UInt64.ofNat position

def get (p : Processor) (r : Register) : UInt64 := p.registers.get r

def set (p : Processor) (r : Register) (w : UInt64) : Processor :=
  { p with registers := p.registers.set r w }

def reaches (p : Processor) (a : UInt64) : Bool := p.spans.any (·.covers a.toNat 8)

def loadWord (p : Processor) (a : UInt64) : Option UInt64 :=
  if p.reaches a then some (p.memory.word a.toNat) else none

def storeWord (p : Processor) (a w : UInt64) : Option Processor :=
  if p.reaches a then some { p with memory := p.memory.setWord a.toNat w } else none

def pushWord (p : Processor) (w : UInt64) : Option Processor := do
  let top := p.get .rsp - 8
  let p ← p.storeWord top w
  pure (p.set .rsp top)

def popWord (p : Processor) : Option (UInt64 × Processor) := do
  let w ← p.loadWord (p.get .rsp)
  pure (w, p.set .rsp (p.get .rsp + 8))

def fieldAddress (p : Processor) (field : Register) : UInt64 :=
  p.get .rdi + UInt64.ofNat field.offset

def setZeroFlag (p : Processor) (on : Bool) : Processor :=
  let flags := p.get .rflags
  p.set .rflags
    (if on then flags ||| Registers.zeroFlag else flags &&& ~~~Registers.zeroFlag)

/-- Carries out an instruction whose successor `rip` points at. Fails where there is no memory. -/
def execute (p : Processor) : Instruction → Option Processor
  | .save source field => p.storeWord (p.fieldAddress field) (p.get source)
  | .restore target field => do pure (p.set target (← p.loadWord (p.fieldAddress field)))
  | .move target source => some (p.set target (p.get source))
  | .loadSpace source =>
    some { p.set .cr3 (p.get source) with loads := p.get source :: p.loads }
  | .addressOf target position => some (p.set target (address position))
  | .push source => p.pushWord (p.get source)
  | .pushField field => do p.pushWord (← p.loadWord (p.fieldAddress field))
  | .pop target => do
    let (w, p) ← p.popWord
    pure (p.set target w)
  | .compare left right => some (p.setZeroFlag (p.get left == p.get right))
  | .test register => some (p.setZeroFlag (p.get register == 0))
  | .jump position => some (p.set .rip (address position))
  | .jumpIfZeroFlag position =>
    some (if p.get .rflags &&& Registers.zeroFlag != 0 then p.set .rip (address position) else p)
  | .ret => do
    let (w, p) ← p.popWord
    pure (p.set .rip w)

/-- The instruction that `rip` points at. -/
def fetch? (code : Array Instruction) (p : Processor) : Option Instruction :=
  code[(p.get .rip - codeBase).toNat]?

/-- Executes up to `n` instructions, and stops where `rip` leaves the code. -/
def run (code : Array Instruction) : Nat → Processor → Option Processor
  | 0, p => some p
  | n + 1, p =>
    match fetch? code p with
    | none => some p
    | some i =>
      match (p.set .rip (p.get .rip + 1)).execute i with
      | none => none
      | some q => run code n q

/-- Calls the code at a position; it comes back to `returnAddress`. -/
def call (code : Array Instruction) (p : Processor) (position : Nat) (returnAddress : UInt64)
    (n : Nat) : Option Processor := do
  let p ← p.pushWord returnAddress
  run code n (p.set .rip (address position))

end Processor

end KernelCore
