import KernelCore.Cpu.Processor

/-!
# Context switch

`giveWay` stores the caller's registers into the file of the process that gives way, with `rip` on a
plain return, and goes on into `enter`. That loads the next process's address space if it has one of
its own, moves onto its stack, restores its registers and flags, and returns to its `rip`. A process
that was switched out comes back by returning from the call that it made.
-/

namespace KernelCore.ContextSwitch

/-- Position of the return at which a process comes back. -/
def resumePosition : Nat := 23

def enterPosition : Nat := 24

/-- Position after the change of address space. -/
def stackPosition : Nat := 31

def saving : List Instruction :=
  [.save .rax .rax, .save .rbx .rbx, .save .rcx .rcx, .save .rdx .rdx, .save .rsi .rsi,
    .save .rdi .rdi, .save .r8 .r8, .save .r9 .r9, .save .r10 .r10, .save .r11 .r11,
    .save .r12 .r12, .save .r13 .r13, .save .r14 .r14, .save .r15 .r15, .save .rbp .rbp,
    .save .rsp .rsp,
    .addressOf .rax resumePosition, .save .rax .rip,
    .push .rflags, .pop .rax, .save .rax .rflags,
    .move .rdi .rsi, .jump enterPosition,
    .ret]

def loading : List Instruction :=
  [.restore .rax .cr3, .test .rax, .jumpIfZeroFlag stackPosition,
    .move .rcx .cr3, .compare .rax .rcx, .jumpIfZeroFlag stackPosition, .loadSpace .rax,
    .restore .rsp .rsp, .pushField .rip, .pushField .rflags,
    .restore .rax .rax, .restore .rbx .rbx, .restore .rcx .rcx, .restore .rdx .rdx,
    .restore .rsi .rsi, .restore .r8 .r8, .restore .r9 .r9, .restore .r10 .r10,
    .restore .r11 .r11, .restore .r12 .r12, .restore .r13 .r13, .restore .r14 .r14,
    .restore .r15 .r15, .restore .rbp .rbp, .restore .rdi .rdi,
    .pop .rflags, .ret]

def code : Array Instruction := (saving ++ loading).toArray

/-- More than the instructions on any way through the code. -/
def steps : Nat := 64

theorem fetch_resume : code[resumePosition]? = some .ret := rfl

/-- Gives way to the process whose file is at `next`; the caller's file is at `previous`. -/
def giveWay (p : Processor) (previous next returnAddress : UInt64) : Option Processor :=
  ((p.set .rdi previous).set .rsi next).call code 0 returnAddress steps

/-- Starts the process whose file is at `next`, and forgets the caller. -/
def enter (p : Processor) (next returnAddress : UInt64) : Option Processor :=
  (p.set .rdi next).call code enterPosition returnAddress steps

end KernelCore.ContextSwitch
