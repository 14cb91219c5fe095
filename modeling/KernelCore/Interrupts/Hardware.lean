import KernelCore.Address
import KernelCore.Interrupts.Timer

/-!
# Hardware programming

What the kernel does to the hardware, as a sequence of events: descriptor tables, the two interrupt
controllers and the timer.
-/

namespace KernelCore

inductive SegmentRegister
  | cs | ds | es | ss
deriving DecidableEq, Repr

/-- A present gate: its stack (0 for the current one) and its type. -/
structure Gate where
  vector : Nat
  stack : Nat
  type : UInt8
deriving DecidableEq, Repr

inductive HardwareEvent
  | out (port : Nat) (byte : UInt8)
  | invalidatePage (page : VirtAddr)
  | writeModelRegister (number : Nat) (value : UInt64)
  | loadAddressSpace (value : UInt64)
  | loadSegmentTable (entries : List UInt64)
  | loadSegment (register : SegmentRegister) (selector : Nat)
  | loadTask (selector : Nat)
  | loadGates (limit : Nat) (gates : List Gate)
deriving DecidableEq, Repr

namespace Hardware

/-- A null entry, kernel code and data, and the two halves of the task segment's descriptor with its
base left out. -/
def segmentTable : List UInt64 := [0, 0xaf9b000000ffff, 0xcf93000000ffff, 0x890000000067, 0]

def codeSelector : Nat := 8

def dataSelector : Nat := 16

def taskSelector : Nat := 24

def loadSegments : List HardwareEvent :=
  [.loadSegmentTable segmentTable, .loadSegment .cs codeSelector, .loadSegment .ds dataSelector,
    .loadSegment .es dataSelector, .loadSegment .ss dataSelector, .loadTask taskSelector]

/-- Interrupt gates for the exceptions that are handled and for the timer. Double faults have a
stack of their own. -/
def gates : List Gate :=
  [⟨3, 0, 0x8e⟩, ⟨8, 1, 0x8e⟩, ⟨13, 0, 0x8e⟩, ⟨14, 0, 0x8e⟩, ⟨Timer.vector, 0, 0x8e⟩]

/-- A table of 256 gates. -/
def loadGates : List HardwareEvent := [.loadGates (256 * 16 - 1) gates]

def primaryCommand : Nat := 0x20

def primaryData : Nat := 0x21

def secondaryCommand : Nat := 0xa0

def secondaryData : Nat := 0xa1

/-- First vector of the secondary controller. -/
def secondaryVector : Nat := 40

/-- A write to a port that nothing listens to, for the time that it takes. -/
def settle : HardwareEvent := .out 0x80 0

/-- Moves the controllers' interrupts to the timer's vector and the ones after it, and masks all but
the timer's. -/
def remapControllers : List HardwareEvent :=
  [.out primaryCommand 0x11, settle, .out secondaryCommand 0x11, settle,
    .out primaryData 32, settle, .out secondaryData 40, settle,
    .out primaryData 4, settle, .out secondaryData 2, settle,
    .out primaryData 1, settle, .out secondaryData 1, settle,
    .out primaryData 0xfe, .out secondaryData 0xff]

/-- Periodic interrupts, with the low byte of the reload value first. -/
def startTimer (divisor : UInt16) : List HardwareEvent :=
  [.out 0x43 0x34, .out 0x40 (UInt8.ofNat (divisor.toNat % 256)),
    .out 0x40 (UInt8.ofNat (divisor.toNat / 256))]

/-- The secondary controller hears of its own interrupts, the primary of all. -/
def endOfInterrupt (vector : Nat) : List HardwareEvent :=
  (if secondaryVector ≤ vector && vector < secondaryVector + 8 then [.out secondaryCommand 0x20]
    else []) ++ [.out primaryCommand 0x20]

end Hardware

end KernelCore
