import KernelCore.Proofs.Machine.Switching

/-!
# Courses of processes

A `Course` is a machine with what its processes are in the middle of: the stack of each, and the
registers of the call in which it waits. Between two entries into the scheduler the process that has
the processor does as it likes, short of the register files of the others and the return addresses
that they come back to. Whatever happens apart from a switch, the processes that wait stay parked,
and stacks stay apart.
-/

namespace KernelCore

open ContextSwitch Kernel Machine Scheduler

-- comparing memories is not to come down to writing bytes
seal Memory.setWord

/-- The memory that a new process is given as its stack. -/
def ProcessPlan.stack (plan : ProcessPlan) : Span := ⟨plan.stackBase.val, plan.stackSize.toNat⟩

structure Course where
  machine : Machine
  /-- Stack of the process in a slot. -/
  stack : ℕ → Span
  /-- Registers of the call in which the process in a slot waits, if it waits in one. -/
  call : ℕ → Option Registers
  /-- Processes that are not registered yet, with their stacks. -/
  pending : List (ProcessDescriptor × Span)

namespace Course

variable {start m m' : Machine} {boot : Span} {c : Course} {i j : ℕ}

/-- Number of processes in the table. -/
def size (c : Course) : ℕ := c.machine.scheduler.table.size

/-- Slot of the process that has the processor. -/
def current (c : Course) : Option ℕ := c.machine.scheduler.current

/-- Registers in the file of the process in a slot. -/
def registers (c : Course) (i : ℕ) : Registers := registersAt c.machine.scheduler i

/-- Address space in the file of the process in a slot, zero if it has none of its own. -/
def root (c : Course) (i : ℕ) : UInt64 := (c.registers i).cr3

/-- Address space that is loaded. -/
def space (c : Course) : UInt64 := c.machine.processor.cr3

/-- The processor is on the stack of its process, also while that gives way and comes back: the call
takes three words at most. -/
def HasRoom (c : Course) : Prop :=
  ∃ i, c.current = some i ∧ Room (c.stack i) c.machine.processor

/-- The span is memory that no process has for its stack. -/
structure Free (c : Course) (s : Span) : Prop where
  backs : c.machine.Backs s
  stack : ∀ i < c.size, (c.stack i).Apart s
  pending : ∀ e ∈ c.pending, e.2.Apart s

/-- The process that has the processor computes. It may change everything but the processes, the
register files of the others, and the words that they return by. -/
structure Computes (c : Course) (m : Machine) : Prop where
  ram : m.ram = c.machine.ram
  scheduler : ∃ i f, c.current = some i ∧ m.scheduler = c.machine.scheduler.withRegisters i f
  words : ∀ i k, c.current ≠ some i → c.call i = some k →
    m.memory.word (c.registers i).rsp.toNat = c.machine.memory.word (c.registers i).rsp.toNat

/-- Once the making of a process on a stack has come to an end. -/
def created (c : Course) (stack : Span) (r : Except SchedulerError ProcessDescriptor)
    (m : Machine) : Course :=
  { c with machine := m, pending := r.toOption.toList.map (·, stack) ++ c.pending }

/-- Once a pending process is registered, or dropped because the table is full. -/
def registered (c : Course) (e : ProcessDescriptor × Span) (r : Except SchedulerError Pid)
    (m : Machine) : Course where
  machine := m
  stack := if r.isOk then Function.update c.stack c.size e.2 else c.stack
  call := if r.isOk then Function.update c.call c.size none else c.call
  pending := c.pending.erase e

/-- The calls after a switch: the process that gave way waits in its call, and the next one is back
from its own. -/
def callAfter (c : Course) (sw : Switch) (j : ℕ) : Option Registers :=
  if sw.previous = some j then
    some (callRegisters (c.machine.processor.withInterrupts false) j sw.next)
  else if j = sw.next then none
  else c.call j

/-- Once an entry into the scheduler has come to an end. -/
def after (c : Course) (r : Option (Switch × Landing)) (m : Machine) : Course :=
  { c with machine := m, call := r.elim c.call fun x => c.callAfter x.1 }

/-- The courses that begin when the code that runs at the start is registered. A new process is made
on a stack that no other one has, and its entry is code of its own, not an instruction of the
switch. -/
inductive Run (start : Machine) (boot : Span) : Course → Prop
  | begin {m : Machine} {pid : Pid} (empty : start.scheduler = .empty) (stack : start.Backs boot)
      (done : spawn (adoptBoot true) start = .ok (.ok pid) m) :
      Run start boot ⟨m, fun _ => boot, fun _ => none, []⟩
  | compute {c : Course} {m : Machine} (run : Run start boot c) (does : c.Computes m) :
      Run start boot { c with machine := m }
  | create {c : Course} {plan : ProcessPlan} {memory : Bool}
      {r : Except SchedulerError ProcessDescriptor} {m : Machine} (run : Run start boot c)
      (free : c.Free plan.stack) (entry : Outside plan.entry)
      (done : newProcess plan memory c.machine = .ok r m) :
      Run start boot (c.created plan.stack r m)
  | register {c : Course} {e : ProcessDescriptor × Span} {r : Except SchedulerError Pid}
      {m : Machine} (run : Run start boot c) (mem : e ∈ c.pending)
      (done : Kernel.enlist e.1 c.machine = .ok r m) : Run start boot (c.registered e r m)
  | setState {c : Course} {pid : Pid} {state : ProcessState} {r : Except SchedulerError Unit}
      {m : Machine} (run : Run start boot c)
      (done : Kernel.setState pid state c.machine = .ok r m) :
      Run start boot { c with machine := m }
  | tick {c : Course} {r : Option (Switch × Landing)} {m : Machine} (run : Run start boot c)
      (room : c.HasRoom) (done : Kernel.tick c.machine = .ok r m) : Run start boot (c.after r m)
  | yield {c : Course} {r : Option (Switch × Landing)} {m : Machine} (run : Run start boot c)
      (room : c.HasRoom) (done : Kernel.yield c.machine = .ok r m) : Run start boot (c.after r m)

/-! ## What is so on every course -/

/-- A process that is not registered waits for its first switch, on a stack of its own. -/
structure Waiting (c : Course) (e : ProcessDescriptor × Span) : Prop where
  backs : c.machine.Backs e.2
  parked : ∀ k : Memory, Parked k e.2 e.1.thread.registers none
  apart : ∀ i < c.size, (c.stack i).Apart e.2

/-- All processes have stacks of their own, and all but the current one are parked. -/
structure Orderly (c : Course) : Prop where
  coherent : Coherent c.machine.scheduler
  size_ne : c.size ≠ 0
  backs : ∀ i < c.size, c.machine.Backs (c.stack i)
  apart : ∀ i j, i < c.size → j < c.size → i ≠ j → (c.stack i).Apart (c.stack j)
  parked : ∀ i < c.size, c.current ≠ some i →
    Parked c.machine.memory (c.stack i) (c.registers i) (c.call i)
  waiting : ∀ e ∈ c.pending, c.Waiting e
  pending : c.pending.Pairwise fun d e => d.2.Apart e.2

theorem Waiting.congr {d : Course} {e : ProcessDescriptor × Span} (h : c.Waiting e)
    (hram : d.machine.ram = c.machine.ram) (hapart : ∀ i < d.size, (d.stack i).Apart e.2) :
    d.Waiting e :=
  ⟨h.backs.congr hram, h.parked, hapart⟩

/-- The machine goes on, with the same processes and the same stacks. -/
theorem Orderly.on (h : c.Orderly) {call : ℕ → Option Registers} (hram : m.ram = c.machine.ram)
    (hsize : m.scheduler.table.size = c.size) (hcoherent : Coherent m.scheduler)
    (hparked : ∀ i < c.size, m.scheduler.current ≠ some i →
      Parked m.memory (c.stack i) (registersAt m.scheduler i) (call i)) :
    Orderly { c with machine := m, call } := by
  constructor
  case coherent => exact hcoherent
  case size_ne =>
    rw [size, hsize]
    exact h.size_ne
  case backs =>
    intro i hi
    rw [size, hsize] at hi
    exact (h.backs i hi).congr hram
  case apart =>
    intro i j hi hj hij
    rw [size, hsize] at hi hj
    exact h.apart i j hi hj hij
  case parked =>
    intro i hi hcurrent
    rw [size, hsize] at hi
    exact hparked i hi hcurrent
  case waiting =>
    intro e he
    refine (h.waiting e he).congr hram fun i hi => ?_
    rw [size, hsize] at hi
    exact (h.waiting e he).apart i hi
  case pending => exact h.pending

/-- The word that a process in a call returns by is on its stack. -/
theorem Orderly.word_eq (h : c.Orderly) {s : Span} {a : ℕ} (w : UInt64) (hi : i < c.size)
    (hcurrent : c.current ≠ some i) (hs : (c.stack i).Apart s) (h₁ : s.base ≤ a)
    (h₂ : a + 8 ≤ s.base + s.size) :
    (c.machine.memory.setWord a w).word (c.registers i).rsp.toNat =
      c.machine.memory.word (c.registers i).rsp.toNat := by
  have hparked := h.parked i hi hcurrent
  have h₃ := hparked.room
  have h₄ := hparked.le
  rw [Span.Apart] at hs
  exact Memory.word_setWord_of_disjoint _ w (by omega)

theorem Orderly.compute (h : c.Orderly) (hdoes : c.Computes m) :
    Orderly { c with machine := m } := by
  obtain ⟨k, f, hk, hscheduler⟩ := hdoes.scheduler
  have hklt : k < c.size := h.coherent.current_lt hk
  refine h.on hdoes.ram ?_ ?_ ?_
  · rw [hscheduler, size_withRegisters]
    rfl
  · rw [hscheduler]
    exact h.coherent.withRegisters k f
  · intro i hi hcurrent
    rw [hscheduler, current_withRegisters] at hcurrent
    have hne : k ≠ i := by
      rintro rfl
      exact hcurrent hk
    have hparked := h.parked i hi hcurrent
    rw [hscheduler, registersAt_withRegisters _ f hklt, if_neg hne]
    refine ⟨hparked.room, hparked.le, hparked.fresh, fun k hk => ?_⟩
    have hsuspended := hparked.suspended k hk
    exact ⟨hsuspended.rip, hsuspended.rsp, (hdoes.words i k hcurrent hk).trans hsuspended.word,
      hsuspended.get⟩

theorem Orderly.setState (h : c.Orderly) {pid : Pid} {state : ProcessState}
    {r : Except SchedulerError Unit} (hdone : Kernel.setState pid state c.machine = .ok r m) :
    Orderly { c with machine := m } := by
  obtain ⟨hmemory, hram, -, hset⟩ := Kernel.setState_eq_ok hdone
  obtain ⟨hfiles, hcurrent⟩ := keepsFiles_of_setState hdone
  have hcoherent : Coherent m.scheduler := by
    cases hset with
    | inl hset => exact h.coherent.setState hset
    | inr hsame => exact hsame ▸ h.coherent
  refine h.on hram hfiles.size hcoherent fun i hi hother => ?_
  rw [hcurrent] at hother
  rw [hmemory, hfiles.registers i]
  exact h.parked i hi hother

/-! ## New processes -/

theorem stackTop?_eq_some {plan : ProcessPlan} {top : ℕ} (h : plan.stackTop? = some top) :
    plan.stack.base + 24 ≤ top ∧ top ≤ plan.stack.base + plan.stack.size ∧ top < 2 ^ 64 := by
  rw [ProcessPlan.stackTop?] at h
  split at h
  · rename_i hfits
    have htop := Option.some.inj h
    have hbase : plan.stack.base = plan.stackBase.val := rfl
    have hsize : plan.stack.size = plan.stackSize.toNat := rfl
    omega
  · contradiction

/-- A new process starts at its entry, with its stack pointer on the sentinel. -/
theorem parked_registers {plan : ProcessPlan} {top : ℕ} (htop : plan.stackTop? = some top)
    (hentry : Outside plan.entry) (k : Memory) :
    Parked k plan.stack (plan.registers top) none := by
  obtain ⟨h₁, h₂, h₃⟩ := stackTop?_eq_some htop
  have hsize : UInt64.size = 2 ^ 64 := rfl
  have hsentinel : ProcessPlan.sentinelAddress top = top - 8 := rfl
  have hrsp : (plan.registers top).rsp.toNat = top - 8 := by
    rw [← hsentinel]
    exact UInt64.toNat_ofNat_of_lt' (by omega)
  exact ⟨by omega, by omega, fun _ => hentry, nofun⟩

theorem Orderly.create (h : c.Orderly) {plan : ProcessPlan} {memory : Bool}
    {r : Except SchedulerError ProcessDescriptor} (hfree : c.Free plan.stack)
    (hentry : Outside plan.entry) (hdone : newProcess plan memory c.machine = .ok r m) :
    Orderly (c.created plan.stack r m) := by
  obtain ⟨hram, -, htable, hcases⟩ := newProcess_eq_ok hdone
  obtain ⟨hsize, hregisters⟩ := htable.keepsFiles
  change m.scheduler.table.size = c.size at hsize
  have hmachine : Orderly { c with machine := m } := by
    refine h.on hram hsize (htable.coherent h.coherent) fun i hi hother => ?_
    rw [htable.current] at hother
    rw [hregisters i]
    apply (h.parked i hi hother).congr
    rcases hcases with ⟨-, hmemory⟩ | ⟨top, htop, hmemory, -⟩
    · rw [hmemory]
    · obtain ⟨h₁, h₂, h₃⟩ := stackTop?_eq_some htop
      have hsentinel : ProcessPlan.sentinelAddress top = top - 8 := rfl
      rw [hmemory]
      exact h.word_eq 0 hi hother (hfree.stack i hi) (by omega) (by omega)
  cases r with
  | error e => exact hmachine
  | ok p =>
    rcases hcases with ⟨⟨e, he⟩, -⟩ | ⟨top, htop, -, hp⟩
    · contradiction
    have hwaiting : Waiting { c with machine := m } (p, plan.stack) := by
      refine ⟨hfree.backs.congr hram, fun k => ?_, fun i hi => ?_⟩
      · rw [hp p rfl]
        exact parked_registers htop hentry k
      · rw [size, hsize] at hi
        exact hfree.stack i hi
    refine ⟨hmachine.coherent, hmachine.size_ne, hmachine.backs, hmachine.apart, hmachine.parked,
      ?_, ?_⟩
    · intro e he
      cases List.mem_cons.mp he with
      | inl hnew => exact hnew ▸ hwaiting.congr rfl hwaiting.apart
      | inr hold => exact (hmachine.waiting e hold).congr rfl (hmachine.waiting e hold).apart
    · exact List.pairwise_cons.mpr ⟨fun e he => (hfree.pending e he).symm, h.pending⟩

section registered

variable {e : ProcessDescriptor × Span} {pid : Pid}

theorem stack_registered_of_lt (hi : i < c.size) :
    (c.registered e (.ok pid) m).stack i = c.stack i :=
  Function.update_of_ne (by omega) _ _

theorem stack_registered_size : (c.registered e (.ok pid) m).stack c.size = e.2 :=
  Function.update_self _ _ _

theorem call_registered_of_lt (hi : i < c.size) :
    (c.registered e (.ok pid) m).call i = c.call i :=
  Function.update_of_ne (by omega) _ _

theorem call_registered_size : (c.registered e (.ok pid) m).call c.size = none :=
  Function.update_self _ _ _

end registered

/-- The stack of a pending process is apart from those of the other ones. -/
theorem Orderly.apart_erase (h : c.Orderly) {d e : ProcessDescriptor × Span}
    (hmem : e ∈ c.pending) (hd : d ∈ c.pending.erase e) : e.2.Apart d.2 := by
  have hperm := List.perm_cons_erase hmem
  have hpairs := (hperm.pairwise_iff fun hd => Span.Apart.symm hd).mp h.pending
  exact (List.pairwise_cons.mp hpairs).1 d hd

/-- Since there is a process already, a new one does not get the processor. -/
theorem Orderly.current_enlist (h : c.Orderly) {p : ProcessDescriptor} {pid : Pid} {s : Scheduler}
    (henlist : c.machine.scheduler.enlist p = .ok (pid, s)) : s.current = c.current := by
  obtain ⟨-, -, rfl⟩ := Scheduler.enlist_eq_ok henlist
  have hsome : c.machine.scheduler.current ≠ none := fun hnone =>
    h.size_ne (h.coherent.current_none.mp hnone)
  exact if_neg (by simpa using hsome)

/-- A pending process comes to the end of the table. -/
theorem Orderly.enlist (h : c.Orderly) {e : ProcessDescriptor × Span} {pid : Pid}
    (hmem : e ∈ c.pending) (hmemory : m.memory = c.machine.memory) (hram : m.ram = c.machine.ram)
    (henlist : c.machine.scheduler.enlist e.1 = .ok (pid, m.scheduler)) :
    Orderly (c.registered e (.ok pid) m) := by
  have hwaiting := h.waiting e hmem
  have hregisters := registersAt_enlist henlist
  have hcurrent := h.current_enlist henlist
  obtain ⟨hspace, -, hresult⟩ := Scheduler.enlist_eq_ok henlist
  have hsize : m.scheduler.table.size = c.size + 1 := by
    rw [hresult, Array.size_push]
    rfl
  have hcases : ∀ i, i < m.scheduler.table.size → i < c.size ∨ i = c.size := by
    intro i hi
    omega
  constructor
  case coherent => exact h.coherent.enlisted e.1 hspace hresult
  case size_ne =>
    rw [size, registered, hsize]
    omega
  case backs =>
    intro i hi
    cases hcases i hi with
    | inl hold =>
      rw [stack_registered_of_lt hold]
      exact (h.backs i hold).congr hram
    | inr hnew =>
      rw [hnew, stack_registered_size]
      exact hwaiting.backs.congr hram
  case apart =>
    intro i j hi hj hij
    cases hcases i hi with
    | inl hiold =>
      rw [stack_registered_of_lt hiold]
      cases hcases j hj with
      | inl hjold =>
        rw [stack_registered_of_lt hjold]
        exact h.apart i j hiold hjold hij
      | inr hjnew =>
        rw [hjnew, stack_registered_size]
        exact hwaiting.apart i hiold
    | inr hinew =>
      rw [hinew, stack_registered_size]
      have hjold : j < c.size :=
        (hcases j hj).resolve_right fun hjnew => hij (hinew.trans hjnew.symm)
      rw [stack_registered_of_lt hjold]
      exact (hwaiting.apart j hjold).symm
  case parked =>
    intro i hi hother
    have hother' : c.current ≠ some i := hcurrent ▸ hother
    have hfile : (c.registered e (.ok pid) m).registers i = _ := hregisters i
    have hsame : (c.registered e (.ok pid) m).machine.memory = c.machine.memory := hmemory
    rw [hfile, hsame]
    cases hcases i hi with
    | inl hold =>
      have hne : i ≠ c.machine.scheduler.table.size := Nat.ne_of_lt hold
      rw [stack_registered_of_lt hold, call_registered_of_lt hold, if_neg hne]
      exact h.parked i hold hother'
    | inr hnew =>
      have heq : c.size = c.machine.scheduler.table.size := rfl
      rw [hnew, stack_registered_size, call_registered_size, if_pos heq]
      exact hwaiting.parked _
  case waiting =>
    intro d hd
    have hd' := h.waiting d (List.mem_of_mem_erase hd)
    refine hd'.congr hram fun i hi => ?_
    cases hcases i hi with
    | inl hold =>
      rw [stack_registered_of_lt hold]
      exact hd'.apart i hold
    | inr hnew =>
      rw [hnew, stack_registered_size]
      exact h.apart_erase hmem hd
  case pending => exact h.pending.sublist List.erase_sublist

theorem Orderly.register (h : c.Orderly) {e : ProcessDescriptor × Span}
    {r : Except SchedulerError Pid} (hmem : e ∈ c.pending)
    (hdone : Kernel.enlist e.1 c.machine = .ok r m) : Orderly (c.registered e r m) := by
  obtain ⟨hmemory, hram, -, hcases⟩ := Kernel.enlist_eq_ok hdone
  rcases hcases with ⟨pid, rfl, henlist⟩ | ⟨⟨error, rfl⟩, hsame⟩
  · exact h.enlist hmem hmemory hram henlist
  · have hmachine : Orderly { c with machine := m } := by
      refine h.on hram (by rw [hsame]; rfl) (by rw [hsame]; exact h.coherent) fun i hi hother => ?_
      rw [hsame] at hother ⊢
      rw [hmemory]
      exact h.parked i hi hother
    refine ⟨hmachine.coherent, hmachine.size_ne, hmachine.backs, hmachine.apart, hmachine.parked,
      fun d hd => ?_, h.pending.sublist List.erase_sublist⟩
    have hd' := hmachine.waiting d (List.mem_of_mem_erase hd)
    exact hd'.congr rfl hd'.apart

theorem Orderly.begin {pid : Pid} (hempty : start.scheduler = .empty) (hboot : start.Backs boot)
    (hdone : spawn (adoptBoot true) start = .ok (.ok pid) m) :
    Orderly ⟨m, fun _ => boot, fun _ => none, []⟩ := by
  obtain ⟨p, m₁, hadopt, henlist⟩ := spawn_eq_ok hdone
  obtain ⟨-, hram₁, hsame, -⟩ := adoptBoot_eq_ok hadopt
  obtain ⟨-, hram₂, -, hcases⟩ := Kernel.enlist_eq_ok henlist
  rcases hcases with ⟨pid', -, htable⟩ | ⟨⟨e, he⟩, -⟩
  swap
  · contradiction
  obtain ⟨hspace, -, hresult⟩ := Scheduler.enlist_eq_ok htable
  have hcoherent₁ : Coherent m₁.scheduler :=
    hsame.coherent (hempty ▸ coherent_empty Scheduler.empty.quantum)
  have hzero : m₁.scheduler.table.size = 0 := by
    rw [hsame.table, hempty]
    rfl
  have hsize : m.scheduler.table.size = 1 := by
    rw [hresult, Array.size_push, hzero]
  have hcurrent : m.scheduler.current = some 0 := by
    have hnone : m₁.scheduler.current.isNone = true := by
      rw [hsame.current, hempty]
      rfl
    rw [hresult]
    simp only [hnone, if_true, hzero]
  constructor
  case coherent => exact hcoherent₁.enlisted p hspace hresult
  case size_ne =>
    rw [size, hsize]
    decide
  case backs =>
    intro i hi
    exact hboot.congr (hram₂.trans hram₁)
  case apart =>
    intro i j hi hj hij
    rw [size, hsize] at hi hj
    omega
  case parked =>
    intro i hi hother
    rw [size, hsize] at hi
    rw [current, hcurrent] at hother
    have hzero : i = 0 := by omega
    exact absurd (congrArg some hzero.symm) hother
  case waiting => simp
  case pending => exact .nil

end Course

end KernelCore
