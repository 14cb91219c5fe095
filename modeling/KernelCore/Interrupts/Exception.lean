import KernelCore.Address
import KernelCore.Text.Display

/-!
# Exceptions

What is reported about an exception: the frame that the processor pushed, and for a page fault the
address, the error code and the process.
-/

namespace KernelCore

structure InterruptFrame where
  instructionPointer : UInt64
  codeSegment : UInt16
  flags : UInt64
  stackPointer : UInt64
  stackSegment : UInt16
deriving DecidableEq, Repr

inductive Exception
  | breakpoint
  | doubleFault
  | generalProtection (code : UInt64)
  | pageFault (address : UInt64) (code : UInt64)
deriving DecidableEq, Repr

namespace InterruptFrame

/-- Bits of the flags register that have names. -/
def flagNames : List (String × Nat) :=
  [("ID", 21), ("VIRTUAL_INTERRUPT_PENDING", 20), ("VIRTUAL_INTERRUPT", 19),
    ("ALIGNMENT_CHECK", 18), ("VIRTUAL_8086_MODE", 17), ("RESUME_FLAG", 16), ("NESTED_TASK", 14),
    ("IOPL_HIGH", 13), ("IOPL_LOW", 12), ("OVERFLOW_FLAG", 11), ("DIRECTION_FLAG", 10),
    ("INTERRUPT_FLAG", 9), ("TRAP_FLAG", 8), ("SIGN_FLAG", 7), ("ZERO_FLAG", 6),
    ("AUXILIARY_CARRY_FLAG", 4), ("PARITY_FLAG", 2), ("CARRY_FLAG", 0)]

def addressDisplay (a : UInt64) : Text.Display := .wrap "VirtAddr" (.atom (Text.hex a.toNat))

/-- A selector is an index into the segment table and a ring. -/
def selectorDisplay (s : UInt16) : Text.Display :=
  .record "SegmentSelector"
    [("index", .atom (toString (s.toNat / 8))), ("rpl", .atom ("Ring" ++ toString (s.toNat % 4)))]

def display (f : InterruptFrame) : Text.Display :=
  .record "InterruptStackFrame"
    [("instruction_pointer", addressDisplay f.instructionPointer),
      ("code_segment", selectorDisplay f.codeSegment),
      ("cpu_flags", .wrap "RFlags" (.atom (Text.flagSet flagNames f.flags.toNat))),
      ("stack_pointer", addressDisplay f.stackPointer),
      ("stack_segment", selectorDisplay f.stackSegment)]

end InterruptFrame

namespace Exception

/-- Bits of a page fault's error code that have names. -/
def pageFaultNames : List (String × Nat) :=
  [("PROTECTION_VIOLATION", 0), ("CAUSED_BY_WRITE", 1), ("USER_MODE", 2), ("MALFORMED_TABLE", 3),
    ("INSTRUCTION_FETCH", 4), ("PROTECTION_KEY", 5), ("SHADOW_STACK", 6), ("HLAT", 7), ("SGX", 15),
    ("RMP", 31)]

/-- The faulting address, marked if it is not canonical. -/
def addressText (a : UInt64) : String :=
  match VirtAddr.ofNat? a.toNat with
  | some _ => "Ok(VirtAddr(" ++ Text.hex a.toNat ++ "))"
  | none => "Err(VirtAddrNotValid(" ++ Text.hex a.toNat ++ "))"

/-- The report of an exception while the process `pid` runs. -/
def report (e : Exception) (f : InterruptFrame) (pid : Option Nat) : String :=
  let frame := f.display.block ""
  match e with
  | .breakpoint => "EXCEPTION: BREAKPOINT\n" ++ frame
  | .doubleFault => "EXCEPTION: DOUBLE FAULT\n" ++ frame
  | .generalProtection code =>
    "EXCEPTION: GENERAL PROTECTION FAULT\nError Code: " ++ Text.hex code.toNat ++ "\n" ++ frame
  | .pageFault address code =>
    "EXCEPTION: PAGE FAULT\nFaulting Address: " ++ addressText address ++
      "\nError Code: PageFaultErrorCode(" ++ Text.flagSet pageFaultNames code.toNat ++
      ")\nCurrent pid: " ++ Text.optional (pid.map toString) ++ "\n" ++ frame

end Exception

end KernelCore
