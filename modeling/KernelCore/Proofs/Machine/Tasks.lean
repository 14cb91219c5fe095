import KernelCore.Machine.Tasks
import KernelCore.Proofs.Machine.Basic
import KernelCore.Proofs.Scheduler.Coherence

/-!
# Processes on a machine

What the operations on processes do to memory and to the table. None but a switch touches a register
file, and only a new process writes memory: the sentinel on its own stack.
-/

namespace KernelCore

open Kernel Scheduler

-- comparing memories is not to come down to writing bytes
seal Memory.setWord

/-! ## Register files in the table -/

namespace Scheduler

variable {s t u : Scheduler} {f : ℕ → ProcessDescriptor → ProcessDescriptor} {i j : ℕ}

/-- All processes keep their slots, and the registers in their files. -/
structure KeepsFiles (s t : Scheduler) : Prop where
  size : t.table.size = s.table.size
  registers : ∀ i, registersAt t i = registersAt s i

theorem KeepsFiles.trans (h₁ : KeepsFiles s t) (h₂ : KeepsFiles t u) : KeepsFiles s u :=
  ⟨h₂.size.trans h₁.size, fun i => (h₂.registers i).trans (h₁.registers i)⟩

theorem Updates.keepsFiles (h : Updates s t f) (hf : ∀ i p, SameProcess p (f i p)) :
    KeepsFiles s t := by
  refine ⟨h.size, fun i => ?_⟩
  rw [registersAt, registersAt, h i]
  cases s.table[i]? with
  | none => rfl
  | some p =>
    obtain ⟨state, timeUsed, timeSlice, hsame⟩ := hf i p
    rw [Option.map_some, hsame]

theorem keepsFiles_charge (h : s.charge = .ok t) : KeepsFiles s t := by
  obtain ⟨-, -, -, hupdates⟩ := charge_eq_ok h
  exact hupdates.keepsFiles (sameProcess_charged s.current)

theorem keepsFiles_dispatch? {sw : Switch} (h : s.dispatch? = some (sw, t)) : KeepsFiles s t := by
  obtain ⟨-, -, -, -, -, -, -, -, -, hupdates⟩ := dispatch?_eq_some h
  exact hupdates.keepsFiles (sameProcess_switched s.current sw.next)

theorem keepsFiles_setState {pid : Pid} {state : ProcessState} (h : s.setState pid state = .ok t) :
    KeepsFiles s t := by
  obtain ⟨i, p, -, -, -, -, rfl⟩ := setState_eq_ok h
  refine (updates_modify s i _).keepsFiles fun j q => ?_
  split
  · exact ⟨state, q.thread.timeUsed, q.thread.timeSlice, rfl⟩
  · exact .refl q

/-- The schedulers differ in the next pid and in the count of ticks at most. -/
structure SameTable (s t : Scheduler) : Prop where
  table : t.table = s.table
  current : t.current = s.current
  quantum : t.quantum = s.quantum

theorem SameTable.refl (s : Scheduler) : SameTable s s := ⟨rfl, rfl, rfl⟩

theorem SameTable.keepsFiles (h : SameTable s t) : KeepsFiles s t := by
  refine ⟨by rw [h.table], fun i => ?_⟩
  rw [registersAt, registersAt, h.table]

theorem sameTable_newDescriptor {privilege : Ring} {heapBase heapSize : UInt64}
    {thread : ThreadState} {memory : Bool} {p : ProcessDescriptor}
    (h : s.newDescriptor privilege heapBase heapSize thread memory = .ok (.ok (p, t))) :
    SameTable s t := by
  obtain ⟨-, -, rfl⟩ := newDescriptor_eq_ok h
  exact ⟨rfl, rfl, rfl⟩

theorem SameTable.coherent (h : SameTable s t) (hs : Coherent s) : Coherent t := by
  have hstep : Step s t (.adopt true) none := .quiet h.table h.current h.quantum
  exact hs.step hstep

/-- The table with other registers in the file of one process. -/
def withRegisters (s : Scheduler) (i : ℕ) (f : Registers) : Scheduler :=
  s.modify i fun q => { q with thread := { q.thread with registers := f } }

@[simp] theorem current_withRegisters (s : Scheduler) (i : ℕ) (f : Registers) :
    (s.withRegisters i f).current = s.current :=
  rfl

@[simp] theorem size_withRegisters (s : Scheduler) (i : ℕ) (f : Registers) :
    (s.withRegisters i f).table.size = s.table.size :=
  (updates_modify s i _).size

theorem withRegisters_self (s : Scheduler) (i : ℕ) : s.withRegisters i (registersAt s i) = s := by
  have htable : (s.withRegisters i (registersAt s i)).table = s.table := by
    apply Array.ext_getElem?
    intro j
    rw [withRegisters, updates_modify s i _ j]
    by_cases hij : i = j
    · subst hij
      cases hentry : s.table[i]? with
      | none => rfl
      | some q => simp only [registersAt, hentry, Option.map_some, if_true]
    · simp only [if_neg hij, Option.map_id']
  obtain ⟨table, current, nextPid, ticks, quantum⟩ := s
  exact congrArg (Scheduler.mk · current nextPid ticks quantum) htable

theorem registersAt_withRegisters (s : Scheduler) {i : ℕ} (f : Registers) (hi : i < s.table.size)
    (j : ℕ) : registersAt (s.withRegisters i f) j = if i = j then f else registersAt s j := by
  have hentry := updates_modify s i
    (fun q => { q with thread := { q.thread with registers := f } }) j
  rw [registersAt, registersAt, withRegisters, hentry]
  by_cases hij : i = j
  · subst hij
    simp only [Array.getElem?_eq_getElem hi, Option.map_some, if_true]
  · cases s.table[j]? with
    | none => rw [Option.map_none, if_neg hij]
    | some q => simp only [Option.map_some, if_neg hij]

/-- A process comes to the end of the table with its file as it is. -/
theorem registersAt_enlist {p : ProcessDescriptor} {pid : Pid} (h : s.enlist p = .ok (pid, t))
    (i : ℕ) :
    registersAt t i = if i = s.table.size then p.thread.registers else registersAt s i := by
  obtain ⟨-, -, rfl⟩ := enlist_eq_ok h
  rw [registersAt, registersAt, Array.getElem?_push]
  by_cases hi : i = s.table.size
  · rw [if_pos hi, if_pos hi]
    rfl
  · rw [if_neg hi, if_neg hi]

theorem Coherent.withRegisters (h : Coherent s) (i : ℕ) (f : Registers) :
    Coherent (s.withRegisters i f) := by
  refine h.updates (updates_modify s i _) (.inl rfl) ?_ ?_ ?_
  · intro j q hq hrun
    apply h.running hq
    split at hrun <;> exact hrun
  · intro j q hq
    have hsettled := h.settled hq
    split <;> exact hsettled
  · intro j q hq
    have hslice := h.timeSlice hq
    split <;> exact hslice

end Scheduler

/-! ## What the scheduler decides -/

namespace Kernel

variable {m m' : Machine} {i j : ℕ}

/-- What a decision on a switch can be, if it may stop with the panics in `stops`. Apart from the
scheduler it leaves the machine alone. -/
inductive Decision (m : Machine) (stops : Panic → Prop) :
    EStateM.Result Halt Machine (Option Switch) → Prop
  | stopped {stop : Panic} (mem : stops stop) : Decision m stops (.error (.panic stop) m)
  | stay {s : Scheduler} (files : KeepsFiles m.scheduler s) (coherent : Coherent s)
      (current : s.current = m.scheduler.current) :
      Decision m stops (.ok none { m with scheduler := s })
  | switch {s : Scheduler} {sw : Switch} {i : ℕ} (files : KeepsFiles m.scheduler s)
      (coherent : Coherent s) (was : m.scheduler.current = some i) (previous : sw.previous = some i)
      (current : s.current = some sw.next) (other : sw.next ≠ i) :
      Decision m stops (.ok (some sw) { m with scheduler := s })

theorem decision_of_dispatch? {s t : Scheduler} (hs : Coherent s)
    (hfiles : KeepsFiles m.scheduler s) (hcurrent : s.current = m.scheduler.current) {sw : Switch}
    (hdispatch : s.dispatch? = some (sw, t)) (stops : Panic → Prop) :
    Decision m stops (.ok (some sw) { m with scheduler := t }) := by
  obtain ⟨i, p, q, hi, -, hnext, -, -, hprevious, -, -, hother⟩ := hs.handsOver hdispatch
  exact .switch (hfiles.trans (keepsFiles_dispatch? hdispatch)) (hs.dispatch? hdispatch)
    (hcurrent.symm.trans hi) hprevious hnext hother

theorem decision_dispatch (h : Coherent m.scheduler) :
    Decision m (fun _ => False) (dispatch m) := by
  simp only [dispatch, bind, EStateM.bind, get_eq]
  cases hdispatch : m.scheduler.dispatch? with
  | none => exact .stay ⟨rfl, fun _ => rfl⟩ h rfl
  | some decided => exact decision_of_dispatch? h ⟨rfl, fun _ => rfl⟩ rfl hdispatch _

/-- A tick stops only if it overflows a count of time. -/
theorem decision_accountTick (h : Coherent m.scheduler) {stops : Panic → Prop}
    (hstops : ∀ stop, m.scheduler.tick = .error stop → stops stop) :
    Decision m stops (accountTick m) := by
  simp only [accountTick, bind, EStateM.bind, get_eq]
  cases htick : m.scheduler.tick with
  | error stop => exact .stopped (hstops stop htick)
  | ok decided =>
    obtain ⟨switch, t⟩ := decided
    obtain ⟨u, hcharge, hcases⟩ := tick_eq_ok htick
    have hu := (h.ticks (m.scheduler.ticks + 1)).charge hcharge
    have hcounted : KeepsFiles m.scheduler { m.scheduler with ticks := m.scheduler.ticks + 1 } :=
      ⟨rfl, fun _ => rfl⟩
    have hfiles := hcounted.trans (keepsFiles_charge hcharge)
    obtain ⟨hcurrent, -, -, -⟩ := charge_eq_ok hcharge
    rcases hcases with ⟨sw, rfl, -, hdispatch⟩ | ⟨rfl, rfl, -⟩
    · exact decision_of_dispatch? hu hfiles hcurrent hdispatch _
    · exact .stay hfiles hu hcurrent

/-! ## The other operations -/

theorem enlist_eq_ok {p : ProcessDescriptor} {r : Except SchedulerError Pid}
    (h : Kernel.enlist p m = .ok r m') : m'.memory = m.memory ∧ m'.ram = m.ram ∧
      m'.processor = m.processor ∧
      ((∃ pid, r = .ok pid ∧ m.scheduler.enlist p = .ok (pid, m'.scheduler)) ∨
        (∃ e, r = .error e) ∧ m'.scheduler = m.scheduler) := by
  simp only [Kernel.enlist, bind, EStateM.bind, onScheduler] at h
  cases henlist : m.scheduler.enlist p with
  | error e =>
    rw [henlist] at h
    obtain ⟨rfl, rfl⟩ := EStateM.Result.ok.inj h
    exact ⟨rfl, rfl, rfl, .inr ⟨⟨e, rfl⟩, rfl⟩⟩
  | ok x =>
    rw [henlist] at h
    obtain ⟨rfl, rfl⟩ := EStateM.Result.ok.inj h
    exact ⟨rfl, rfl, rfl, .inl ⟨x.1, rfl, rfl⟩⟩

theorem setState_eq_ok {pid : Pid} {state : ProcessState} {r : Except SchedulerError Unit}
    (h : Kernel.setState pid state m = .ok r m') : m'.memory = m.memory ∧ m'.ram = m.ram ∧
      m'.processor = m.processor ∧
      (m.scheduler.setState pid state = .ok m'.scheduler ∨ m'.scheduler = m.scheduler) := by
  simp only [Kernel.setState, bind, EStateM.bind, get_eq, onScheduler] at h
  cases hset : m.scheduler.setState pid state with
  | error e =>
    rw [hset] at h
    obtain ⟨rfl, rfl⟩ := EStateM.Result.ok.inj h
    exact ⟨rfl, rfl, rfl, .inr rfl⟩
  | ok s =>
    rw [hset] at h
    cases hbefore : m.scheduler.process? pid with
    | none =>
      rw [hbefore] at h
      obtain ⟨rfl, rfl⟩ := EStateM.Result.ok.inj h
      exact ⟨rfl, rfl, rfl, .inl rfl⟩
    | some p =>
      rw [hbefore] at h
      obtain ⟨rfl, rfl⟩ := EStateM.Result.ok.inj h
      exact ⟨rfl, rfl, rfl, .inl rfl⟩

theorem keepsFiles_of_setState {pid : Pid} {state : ProcessState}
    {r : Except SchedulerError Unit} (h : Kernel.setState pid state m = .ok r m') :
    KeepsFiles m.scheduler m'.scheduler ∧ m'.scheduler.current = m.scheduler.current := by
  obtain ⟨-, -, -, hset⟩ := setState_eq_ok h
  cases hset with
  | inl hset =>
    obtain ⟨i, p, -, -, -, -, hresult⟩ := Scheduler.setState_eq_ok hset
    exact ⟨keepsFiles_setState hset, by rw [hresult]; rfl⟩
  | inr hsame => exact hsame ▸ ⟨⟨rfl, fun _ => rfl⟩, rfl⟩

/-- Making a descriptor changes the next pid at most. -/
theorem keepDescriptor_eq_ok {privilege : Ring} {heapBase heapSize : UInt64} {thread : ThreadState}
    {memory : Bool} {r : Except SchedulerError ProcessDescriptor}
    (h : keepDescriptor (m.scheduler.newDescriptor privilege heapBase heapSize thread memory) m =
      .ok r m') :
    m'.memory = m.memory ∧ m'.ram = m.ram ∧ m'.processor = m.processor ∧
      SameTable m.scheduler m'.scheduler ∧ ∀ p, r = .ok p → p.thread = thread := by
  cases hmade : m.scheduler.newDescriptor privilege heapBase heapSize thread memory with
  | error stop =>
    rw [hmade] at h
    contradiction
  | ok made =>
    rw [hmade] at h
    cases made with
    | ok made =>
      obtain ⟨rfl, rfl⟩ := EStateM.Result.ok.inj h
      refine ⟨rfl, rfl, rfl, sameTable_newDescriptor hmade, fun p hp => ?_⟩
      obtain rfl := Except.ok.inj hp
      exact thread_newDescriptor hmade
    | error e =>
      simp only [keepDescriptor, checked, bind, EStateM.bind, pure, EStateM.pure] at h
      by_cases hmemory : e = .outOfMemory
      · rw [if_pos hmemory] at h
        obtain ⟨rfl, rfl⟩ := EStateM.Result.ok.inj h
        exact ⟨rfl, rfl, rfl, .refl _, nofun⟩
      · rw [if_neg hmemory] at h
        obtain ⟨rfl, rfl⟩ := EStateM.Result.ok.inj h
        exact ⟨rfl, rfl, rfl, .refl _, nofun⟩

theorem adoptBoot_eq_ok {memory : Bool} {r : Except SchedulerError ProcessDescriptor}
    (h : adoptBoot memory m = .ok r m') : m'.memory = m.memory ∧ m'.ram = m.ram ∧
      SameTable m.scheduler m'.scheduler ∧ ∀ p, r = .ok p → p.thread.registers = .zero := by
  obtain ⟨hmemory, hram, -, hsame, hthread⟩ := keepDescriptor_eq_ok h
  refine ⟨hmemory, hram, hsame, fun p hp => ?_⟩
  rw [hthread p hp]
  rfl

theorem spawn_eq_ok {make : Kernel (Except SchedulerError ProcessDescriptor)} {pid : Pid}
    (h : spawn make m = .ok (.ok pid) m') :
    ∃ p m₁, make m = .ok (.ok p) m₁ ∧ Kernel.enlist p m₁ = .ok (.ok pid) m' := by
  simp only [spawn, bind, EStateM.bind] at h
  cases hmake : make m with
  | error halt m₁ => simp [hmake] at h
  | ok r m₁ =>
    rw [hmake] at h
    cases r with
    | error e => cases h
    | ok p => exact ⟨p, m₁, rfl, h⟩

theorem storeWord_eq_ok {a : ℕ} (h : m.ram.covers a 8 = true) (w : UInt64) :
    storeWord a w m = .ok () { m with memory := m.memory.setWord a w } := by
  rw [storeWord, bind_eq_ok (get_eq m), if_pos h]
  rfl

/-- Apart from the sentinel on its stack, a new process is a descriptor that is not in the table. -/
theorem newProcess_eq_ok {c : ProcessPlan} {memory : Bool}
    {r : Except SchedulerError ProcessDescriptor} (h : newProcess c memory m = .ok r m') :
    m'.ram = m.ram ∧ m'.processor = m.processor ∧ SameTable m.scheduler m'.scheduler ∧
      ((∃ e, r = .error e) ∧ m'.memory = m.memory ∨
        ∃ top, c.stackTop? = some top ∧
          m'.memory = m.memory.setWord (ProcessPlan.sentinelAddress top) 0 ∧
          ∀ p, r = .ok p → p.thread.registers = c.registers top) := by
  rw [newProcess] at h
  cases htop : c.stackTop? with
  | none =>
    rw [htop] at h
    obtain ⟨rfl, rfl⟩ := EStateM.Result.ok.inj h
    exact ⟨rfl, rfl, .refl _, .inl ⟨⟨_, rfl⟩, rfl⟩⟩
  | some top =>
    rw [htop] at h
    simp only [bind, EStateM.bind, storeWord, get_eq] at h
    by_cases hcovers : m.ram.covers (ProcessPlan.sentinelAddress top) 8 = true
    · rw [if_pos hcovers] at h
      obtain ⟨hmemory, hram, hprocessor, hsame, hthread⟩ := keepDescriptor_eq_ok h
      refine ⟨hram, hprocessor, hsame, .inr ⟨top, rfl, hmemory, fun p hp => ?_⟩⟩
      rw [hthread p hp]
      rfl
    · rw [if_neg hcovers] at h
      contradiction

end Kernel

end KernelCore
