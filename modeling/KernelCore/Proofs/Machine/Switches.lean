import KernelCore.Proofs.Machine.Courses

/-!
# Registers over whole runs

Wherever a course has come to, an entry into the scheduler never fails; a switch writes the register
file of the process that gives way and a few words of the two stacks; and it brings the next process
back with the registers of the call in which that waits.
-/

namespace KernelCore

open ContextSwitch Kernel Machine Scheduler

seal Memory.setWord

namespace Course

variable {start m m' : Machine} {boot : Span} {c : Course} {i j : ℕ}

/-- Memory at the entry of a switch: the files of both processes are in it, and the return address
is on the stack that is left. -/
def entryMemory (c : Course) (sw : Switch) : Memory :=
  (switchStart c.machine sw).memory.setWord (c.machine.processor.rsp.toNat - 8) switchReturn

/-- A switch from the process in slot `i`. It writes the file of that process, except for the
address space, and a word below its stack pointer; and two words below the one of the next process.
The other one comes back from the call that it made, with the registers of that call. -/
structure Switched (c : Course) (sw : Switch) (place : Landing) (m : Machine) (i : ℕ) : Prop where
  current : c.current = some i
  previous : sw.previous = some i
  next : m.scheduler.current = some sw.next
  other : sw.next ≠ i
  memory : Memory.AgreeOutside
    (writes (registerFile i).toNat (c.machine.processor.rsp.toNat - 8)
      (c.registers sw.next).rsp.toNat) (c.entryMemory sw) m.memory
  files : ∀ j, j ≠ i → registersAt m.scheduler j = c.registers j
  cr3 : (registersAt m.scheduler i).cr3 = (c.registers i).cr3
  resumed : ∀ k, c.call sw.next = some k → place = .resumed ∧
    ∀ r, r ≠ .rip → r ≠ .cr3 → m.processor.get r = k.get r
  started : c.call sw.next = none → ∀ r, r ≠ .cr3 → m.processor.get r = (c.registers sw.next).get r

/-- What an entry into the scheduler does that may stop with the panics in `stops`. -/
inductive Outcome (c : Course) (stops : Panic → Prop) :
    EStateM.Result Halt Machine (Option (Switch × Landing)) → Prop
  | stopped {stop : Panic} {m : Machine} (mem : stops stop)
      (memory : m.memory = c.machine.memory) : Outcome c stops (.error (.panic stop) m)
  | stayed {m : Machine} (memory : m.memory = c.machine.memory)
      (files : KeepsFiles c.machine.scheduler m.scheduler)
      (current : m.scheduler.current = c.current) : Outcome c stops (.ok none m)
  | switched {sw : Switch} {place : Landing} {m : Machine} {i : ℕ}
      (switched : c.Switched sw place m i) : Outcome c stops (.ok (some (sw, place)) m)

/-! ## Entries into the scheduler -/

section switching

variable {decide : Kernel (Option Switch)} {sw : Switch} {place : Landing}

/-- The machine as the scheduler decides, with interrupts off. -/
def quieted (m : Machine) : Machine := { m with processor := m.processor.withInterrupts false }

theorem switching_of_error {halt : Halt} (h : decide (quieted m) = .error halt m') :
    switching decide m = .error halt m' := by
  have hoff : setInterrupts false m = .ok () (quieted m) := rfl
  simp only [switching, bind, EStateM.bind, get_eq, hoff, h]

theorem switching_of_none (h : decide (quieted m) = .ok none m') : switching decide m =
    .ok none { m' with
      processor := m'.processor.withInterrupts m.processor.interruptsEnabled } := by
  have hoff : setInterrupts false m = .ok () (quieted m) := rfl
  simp only [switching, bind, EStateM.bind, get_eq, hoff, h]
  rfl

theorem switching_of_some {m₁ : Machine} (h : decide (quieted m) = .ok (some sw) m₁)
    (hcarry : carryOut sw m₁ = .ok place m') :
    switching decide m = .ok (some (sw, place)) m' := by
  have hoff : setInterrupts false m = .ok () (quieted m) := rfl
  simp only [switching, bind, EStateM.bind, get_eq, hoff, h, hcarry]
  rfl

end switching

/-- The scheduler went on to `s`, and decided on a switch from the process in slot `i`. -/
structure Decided (c : Course) (s : Scheduler) (sw : Switch) (i : ℕ) : Prop where
  files : KeepsFiles c.machine.scheduler s
  coherent : Coherent s
  was : c.current = some i
  previous : sw.previous = some i
  next : s.current = some sw.next
  other : sw.next ≠ i

/-- The machine as a switch begins. -/
def decided (c : Course) (s : Scheduler) : Machine := { quieted c.machine with scheduler := s }

section switches

variable {s : Scheduler} {sw : Switch} {place : Landing}

theorem Decided.next_lt (hd : c.Decided s sw i) : sw.next < c.size := by
  have hlt := hd.coherent.current_lt hd.next
  rw [hd.files.size] at hlt
  exact hlt

theorem Orderly.lt (h : c.Orderly) (hi : i < c.size) : i < 1024 := by
  have hle := h.coherent.size_le
  rw [size] at hi
  omega

theorem Orderly.current_lt (h : c.Orderly) (hi : c.current = some i) : i < c.size :=
  h.coherent.current_lt hi

/-- The next process is parked as the switch begins. -/
theorem Orderly.parked_next (h : c.Orderly) (hd : c.Decided s sw i) :
    Parked (c.decided s).memory (c.stack sw.next) (registersAt (c.decided s).scheduler sw.next)
      (c.call sw.next) := by
  have hwaits : c.current ≠ some sw.next := by
    rw [hd.was]
    simpa using Ne.symm hd.other
  have hfile : registersAt (c.decided s).scheduler sw.next = c.registers sw.next :=
    hd.files.registers sw.next
  rw [hfile]
  exact h.parked sw.next hd.next_lt hwaits

theorem Orderly.apart_next (h : c.Orderly) (hd : c.Decided s sw i) :
    (c.stack i).Apart (c.stack sw.next) :=
  h.apart i sw.next (h.current_lt hd.was) hd.next_lt (Ne.symm hd.other)

theorem Orderly.backs_decided (h : c.Orderly) (s : Scheduler) (hi : i < c.size) :
    (c.decided s).Backs (c.stack i) :=
  (h.backs i hi).congr rfl

theorem room_decided {stack : Span} (hroom : Room stack c.machine.processor) (s : Scheduler) :
    Room stack (c.decided s).processor :=
  ⟨hroom.room, hroom.le⟩

theorem Orderly.exists_carryOut (h : c.Orderly) (hd : c.Decided s sw i)
    (hroom : Room (c.stack i) c.machine.processor) : ∃ place m',
      carryOut sw (c.decided s) = .ok place m' ∧ CarriedOut (c.decided s) sw i place m' :=
  carryOut_spec hd.previous (h.lt (h.current_lt hd.was)) (h.lt hd.next_lt) hd.other
    (h.backs_decided s (h.current_lt hd.was)) (h.backs_decided s hd.next_lt) (h.apart_next hd)
    (room_decided hroom s) (h.parked_next hd)

/-- Only the file of the process that gave way is another one. -/
theorem Orderly.registers_carriedOut (h : c.Orderly) (hd : c.Decided s sw i)
    (hcarried : CarriedOut (c.decided s) sw i place m') :
    m'.scheduler.current = some sw.next ∧ m'.scheduler.table.size = c.size ∧
      Coherent m'.scheduler ∧ ∃ f : Registers,
        f.get = savedRegisters (callRegisters (c.decided s).processor i sw.next).get
          (c.registers i).cr3 ∧
        ∀ j, registersAt m'.scheduler j = if i = j then f else c.registers j := by
  obtain ⟨f, hscheduler, hf⟩ := hcarried.scheduler
  have hwith : m'.scheduler = s.withRegisters i f := hscheduler
  have hi : i < s.table.size := by
    rw [hd.files.size]
    exact h.current_lt hd.was
  have hfile : registersAt (c.decided s).scheduler i = c.registers i := hd.files.registers i
  rw [hfile] at hf
  rw [hwith]
  refine ⟨hd.next, ?_, hd.coherent.withRegisters i f, f, hf, fun j => ?_⟩
  · rw [size_withRegisters, hd.files.size]
    rfl
  · have hj : registersAt s j = c.registers j := hd.files.registers j
    rw [registersAt_withRegisters s f hi, hj]

theorem entryMemory_eq (hd : c.Decided s sw i) :
    (switchStart (c.decided s) sw).memory = (switchStart c.machine sw).memory := by
  rw [memory_switchStart hd.previous, memory_switchStart hd.previous]
  have hfile : ∀ j, registersAt (c.decided s).scheduler j = registersAt c.machine.scheduler j :=
    hd.files.registers
  rw [hfile, hfile]
  rfl

/-- The next process is back from its call, or starts. -/
theorem Orderly.switched (h : c.Orderly) (hd : c.Decided s sw i)
    (hcarried : CarriedOut (c.decided s) sw i place m') : c.Switched sw place m' i := by
  obtain ⟨hcurrent, -, -, f, hf, hregisters⟩ := h.registers_carriedOut hd hcarried
  have hparked := h.parked_next hd
  have hfile : registersAt (c.decided s).scheduler sw.next = c.registers sw.next :=
    hd.files.registers sw.next
  have hprocessor := hcarried.processor
  have hmemory := hcarried.memory
  rw [hfile] at hparked hprocessor hmemory
  constructor
  case current => exact hd.was
  case previous => exact hd.previous
  case next => exact hcurrent
  case other => exact hd.other
  case memory =>
    rw [entryMemory_eq hd] at hmemory
    exact hmemory
  case files =>
    intro j hj
    rw [hregisters j, if_neg (Ne.symm hj)]
  case cr3 =>
    rw [hregisters i, if_pos rfl]
    exact congrFun hf .cr3
  case resumed =>
    intro k hk
    have hsuspended := hparked.suspended k hk
    have hget : ∀ r, r ≠ .cr3 →
        m'.processor.get r = if r = .rip then switchReturn else k.get r := by
      intro r hr
      rw [hprocessor r hr, hsuspended.landing_eq hr]
    have hrip : m'.processor.rip = switchReturn := hget .rip (by decide)
    refine ⟨?_, fun r hrip hcr3 => ?_⟩
    · rw [hcarried.place, if_pos hrip]
    · rw [hget r hcr3, if_neg hrip]
  case started =>
    intro hnone r hr
    rw [hnone] at hparked
    rw [hprocessor r hr, hparked.landing_fresh]

theorem Decided.space (hd : c.Decided s sw i)
    (hcarried : CarriedOut (c.decided s) sw i place m') :
    m'.processor.cr3 = spaceAfter (c.root sw.next) c.space := by
  have hfile : registersAt (c.decided s).scheduler sw.next = c.registers sw.next :=
    hd.files.registers sw.next
  have hspace := hcarried.cr3
  rw [hfile] at hspace
  exact hspace

/-- The process that gave way is parked, and the others are as they were. -/
theorem Orderly.afterSwitch (h : c.Orderly) (hd : c.Decided s sw i)
    (hroom : Room (c.stack i) c.machine.processor)
    (hcarried : CarriedOut (c.decided s) sw i place m') :
    Orderly (c.after (some (sw, place)) m') := by
  obtain ⟨hcurrent, hsize, hcoherent, f, hf, hregisters⟩ := h.registers_carriedOut hd hcarried
  have hi := h.current_lt hd.was
  refine h.on hcarried.ram hsize hcoherent fun j hj hother => ?_
  have hnext : j ≠ sw.next := by
    rintro rfl
    exact hother hcurrent
  rw [hregisters j]
  by_cases hij : i = j
  · subst hij
    have hcall : c.callAfter sw i =
        some (callRegisters (c.machine.processor.withInterrupts false) i sw.next) :=
      if_pos hd.previous
    have hfile : registersAt (c.decided s).scheduler i = c.registers i := hd.files.registers i
    have hparked := hcarried.parked (h.lt hi) (h.backs_decided s hi) (h.apart_next hd)
      (room_decided hroom s) (h.parked_next hd) (hfile.symm ▸ hf)
    rw [if_pos rfl]
    change Parked m'.memory (c.stack i) f (c.callAfter sw i)
    rw [hcall]
    exact hparked
  · have hcall : c.callAfter sw j = c.call j := by
      have hprevious : sw.previous ≠ some j := by
        rw [hd.previous]
        simpa using hij
      rw [callAfter, if_neg hprevious, if_neg hnext]
    have hwaits : c.current ≠ some j := by
      rw [hd.was]
      simpa using hij
    have hparked := h.parked j hj hwaits
    have hword := hcarried.word_eq hd.previous (h.lt hi) (h.lt hd.next_lt) (room_decided hroom s)
      (h.parked_next hd) (h.backs_decided s hj) (h.apart j i hj hi (Ne.symm hij))
      (h.apart j sw.next hj hd.next_lt hnext) (a := (c.registers j).rsp.toNat)
      (by have := hparked.room; omega) hparked.le
    rw [if_neg hij]
    change Parked m'.memory (c.stack j) (c.registers j) (c.callAfter sw j)
    rw [hcall]
    exact hparked.congr hword

/-- The address space that is loaded once an entry into the scheduler has come to an end. -/
def entered (c : Course) (r : Option (Switch × Landing)) : UInt64 :=
  r.elim c.space fun x => spaceAfter (c.root x.1.next) c.space

/-- What is so on a course once an entry into the scheduler has come to an end. -/
structure Entered (c : Course) (r : Option (Switch × Landing)) (m : Machine) : Prop where
  orderly : Orderly (c.after r m)
  size : (c.after r m).size = c.size
  space : (c.after r m).space = c.entered r

/-- An entry into the scheduler stops only where the decision does. -/
theorem Orderly.enter (h : c.Orderly) (hroom : c.HasRoom) {decide : Kernel (Option Switch)}
    {stops : Panic → Prop}
    (hdecide : Decision (quieted c.machine) stops (decide (quieted c.machine))) :
    Outcome c stops (switching decide c.machine) ∧
      ∀ r m, switching decide c.machine = .ok r m → c.Entered r m := by
  obtain ⟨i, hi, hroom⟩ := hroom
  generalize hresult : decide (quieted c.machine) = result at hdecide
  cases hdecide with
  | stopped mem =>
    rw [switching_of_error hresult]
    refine ⟨.stopped mem rfl, fun r m hdone => ?_⟩
    contradiction
  | stay files coherent current =>
    rw [switching_of_none hresult]
    refine ⟨.stayed rfl files current, fun r m hdone => ?_⟩
    obtain ⟨rfl, rfl⟩ := EStateM.Result.ok.inj hdone
    refine ⟨h.on rfl files.size coherent fun j hj hother => ?_, files.size, rfl⟩
    have hfile := files.registers j
    have hcurrent : c.current ≠ some j := fun hj' => hother (current.trans hj')
    rw [hfile]
    exact h.parked j hj hcurrent
  | switch files coherent was previous current other =>
    obtain rfl := Option.some.inj (was.symm.trans hi)
    have hd := Decided.mk files coherent hi previous current other
    obtain ⟨place, m', hcarry, hcarried⟩ := h.exists_carryOut hd hroom
    rw [switching_of_some hresult hcarry]
    refine ⟨.switched (h.switched hd hcarried), fun r m hdone => ?_⟩
    obtain ⟨rfl, rfl⟩ := EStateM.Result.ok.inj hdone
    obtain ⟨-, hsize, -⟩ := h.registers_carriedOut hd hcarried
    exact ⟨h.afterSwitch hd hroom hcarried, hsize, hd.space hcarried⟩

end switches

theorem Orderly.tick (h : c.Orderly) (hroom : c.HasRoom) :
    Outcome c (fun stop => c.machine.scheduler.tick = .error stop) (Kernel.tick c.machine) ∧
      ∀ r m, Kernel.tick c.machine = .ok r m → c.Entered r m := by
  have hcoherent : Coherent (quieted c.machine).scheduler := h.coherent
  exact h.enter hroom (decision_accountTick hcoherent fun _ hstop => hstop)

theorem Orderly.yield (h : c.Orderly) (hroom : c.HasRoom) :
    Outcome c (fun _ => False) (Kernel.yield c.machine) ∧
      ∀ r m, Kernel.yield c.machine = .ok r m → c.Entered r m := by
  have hcoherent : Coherent (quieted c.machine).scheduler := h.coherent
  exact h.enter hroom (decision_dispatch hcoherent)

theorem Run.orderly (hrun : Run start boot c) : c.Orderly := by
  induction hrun with
  | begin empty stack done => exact .begin empty stack done
  | compute _ does ih => exact ih.compute does
  | create _ free entry done ih => exact ih.create free entry done
  | register _ mem done ih => exact ih.register mem done
  | setState _ done ih => exact ih.setState done
  | tick _ room done ih => exact ((ih.tick room).2 _ _ done).orderly
  | yield _ room done ih => exact ((ih.yield room).2 _ _ done).orderly

/-! ## The boot code and one worker -/

namespace OneWorker

/-- The worker has an address space of its own. -/
def plan : ProcessPlan :=
  { ProcessPlan.kernel 0x1234 7 ⟨0x100000, by decide⟩ 0x1000 with root := some ⟨5, by decide⟩ }

def descriptor : ProcessDescriptor := ⟨2, 0, .new, .innermost, 0, 0, 0, plan.thread 0x101000⟩

def off : Machine := .off none .zeroed ⟨0x100000, 0x10000⟩ 0x1000

def booted : Machine := Kernel.after (spawn (adoptBoot true)) off

def made : Machine := Kernel.after (newProcess plan true) booted

def ready : Machine := Kernel.after (Kernel.enlist descriptor) made

/-- The boot code computes. -/
def computed : Machine := { ready with processor := ready.processor.set .rbx 42 }

def switched : Machine := Kernel.after Kernel.yield computed

/-- The worker computes. -/
def worked : Machine := { switched with processor := switched.processor.set .rbx 1 }

theorem spawn_eq : spawn (adoptBoot true) off = .ok (.ok 1) booted := rfl

theorem newProcess_eq : newProcess plan true booted = .ok (.ok descriptor) made := rfl

theorem enlist_eq : Kernel.enlist descriptor made = .ok (.ok 2) ready := rfl

theorem yield_eq : Kernel.yield computed =
    .ok (some (⟨some 0, 1, some 1, 2⟩, .entered 0x1234)) switched :=
  eq_ok_of_answer? (by decide +kernel)

theorem yield_back : Kernel.yield worked =
    .ok (some (⟨some 1, 0, some 2, 1⟩, .resumed)) (Kernel.after Kernel.yield worked) :=
  eq_ok_of_answer? (by decide +kernel)

def begun : Course := ⟨booted, fun _ => bootStack, fun _ => none, []⟩

def registering : Course :=
  (begun.created plan.stack (.ok descriptor) made).registered (descriptor, plan.stack) (.ok 2) ready

def computing : Course := { registering with machine := computed }

/-- The boot code has given way, and the worker starts. -/
def starting : Course :=
  computing.after (some (⟨some 0, 1, some 1, 2⟩, .entered 0x1234)) switched

def working : Course := { starting with machine := worked }

theorem free_stack : begun.Free plan.stack := by
  refine ⟨⟨.inl rfl, ?_⟩, fun i _ => ?_, nofun⟩
  · unfold Span.Apart
    decide
  · have hboot : begun.stack i = bootStack := rfl
    rw [hboot]
    unfold Span.Apart
    decide

theorem backs_bootStack : off.Backs bootStack := by
  refine ⟨.inr (by decide), ?_⟩
  unfold Span.Apart
  decide

theorem run_registering : Run off bootStack registering := by
  have hbegun : Run off bootStack begun := .begin rfl backs_bootStack spawn_eq
  have hmade := hbegun.create free_stack (show Outside plan.entry from rfl) newProcess_eq
  exact hmade.register List.mem_cons_self enlist_eq

theorem computes_computed : registering.Computes computed := by
  refine ⟨rfl, ⟨0, _, rfl, (withRegisters_self _ 0).symm⟩, ?_⟩
  intro i k _ _
  rfl

theorem run_computing : Run off bootStack computing := run_registering.compute computes_computed

theorem room_computing : computing.HasRoom :=
  ⟨0, rfl, ⟨by decide +kernel, by decide +kernel⟩⟩

theorem computes_worked : starting.Computes worked := by
  have hcurrent : switched.scheduler.current = some 1 := by decide +kernel
  refine ⟨rfl, ⟨1, _, hcurrent, (withRegisters_self _ 1).symm⟩, ?_⟩
  intro i k _ _
  rfl

theorem run_working : Run off bootStack working :=
  (run_computing.yield room_computing yield_eq).compute computes_worked

theorem room_working : working.HasRoom :=
  ⟨1, by decide +kernel, ⟨by decide +kernel, by decide +kernel⟩⟩

end OneWorker

/-! ## Whole runs -/

/-- Wherever a course has come to, a tick from a process with room on its stack stops at most
because a count of time overflows, and giving up the processor never stops. A switch writes the
register file of the process that gives way, except for the address space, the word below its stack
pointer, and the two words below that of the next process; and a process that was switched out before
returns from its call with the general registers, the stack pointer and the flags that it had
there. -/
theorem Run.switches_preserve_registers (hrun : Run start boot c) (hroom : c.HasRoom) :
    Outcome c (fun stop => c.machine.scheduler.tick = .error stop) (Kernel.tick c.machine) ∧
      Outcome c (fun _ => False) (Kernel.yield c.machine) :=
  ⟨(hrun.orderly.tick hroom).1, (hrun.orderly.yield hroom).1⟩

/-- The boot code comes back from its call with the `rbx` that it had there, whatever the worker did
with that register. -/
theorem Run.switches_preserve_registers_of_one_worker :
    ∃ start boot c k sw m, Run start boot c ∧ c.HasRoom ∧ c.machine.processor.rbx = 1 ∧
      Kernel.yield c.machine = .ok (some (sw, .resumed)) m ∧ c.call sw.next = some k ∧
      k.rbx = 42 ∧ ∀ r, r ≠ .rip → r ≠ .cr3 → m.processor.get r = k.get r := by
  obtain ⟨-, hyield⟩ := Run.switches_preserve_registers OneWorker.run_working OneWorker.room_working
  have hback := OneWorker.yield_back
  have hmachine : OneWorker.working.machine = OneWorker.worked := rfl
  rw [hmachine, hback] at hyield
  refine ⟨OneWorker.off, bootStack, OneWorker.working, _, _, _, OneWorker.run_working,
    OneWorker.room_working, rfl, hback, rfl, rfl, ?_⟩
  cases hyield with
  | switched hswitched => exact (hswitched.resumed _ rfl).2

end Course

end KernelCore
