import KernelCore.Proofs.Machine.Switches

/-!
# Address spaces over whole runs

A switch loads the address space of the next process if that has one of its own, and stays in the
one that is loaded otherwise. None is saved. So a process with an address space of its own always
finds that one, and any other process comes back to the one that ran last with its own.
-/

namespace KernelCore

open ContextSwitch Kernel Machine Scheduler

seal Memory.setWord

namespace Course

variable {start m : Machine} {boot : Span} {c d e : Course} {i : ℕ} {sw : Switch} {place : Landing}
  {r : Option (Switch × Landing)} {roots : List UInt64}

/-- One step of a course, with what an entry into the scheduler returned. Address spaces are loaded
by switches alone, and each file keeps its own. -/
inductive Step (c : Course) : Option (Switch × Landing) → Course → Prop
  | compute {m : Machine} (does : c.Computes m) (space : m.processor.cr3 = c.space)
      (root : ∀ i, (registersAt m.scheduler i).cr3 = c.root i) : Step c none { c with machine := m }
  | create {plan : ProcessPlan} {memory : Bool} {r : Except SchedulerError ProcessDescriptor}
      {m : Machine} (free : c.Free plan.stack) (entry : Outside plan.entry)
      (done : newProcess plan memory c.machine = .ok r m) : Step c none (c.created plan.stack r m)
  | register {e : ProcessDescriptor × Span} {r : Except SchedulerError Pid} {m : Machine}
      (mem : e ∈ c.pending) (done : Kernel.enlist e.1 c.machine = .ok r m) :
      Step c none (c.registered e r m)
  | setState {pid : Pid} {state : ProcessState} {r : Except SchedulerError Unit} {m : Machine}
      (done : Kernel.setState pid state c.machine = .ok r m) : Step c none { c with machine := m }
  | tick {r : Option (Switch × Landing)} {m : Machine} (room : c.HasRoom)
      (done : Kernel.tick c.machine = .ok r m) : Step c r (c.after r m)
  | yield {r : Option (Switch × Landing)} {m : Machine} (room : c.HasRoom)
      (done : Kernel.yield c.machine = .ok r m) : Step c r (c.after r m)

/-- The courses that such steps lead to, once the code that runs at the start is registered. -/
inductive Steps (start : Machine) (boot : Span) : Course → Prop
  | begin {m : Machine} {pid : Pid} (empty : start.scheduler = .empty) (stack : start.Backs boot)
      (done : spawn (adoptBoot true) start = .ok (.ok pid) m) :
      Steps start boot ⟨m, fun _ => boot, fun _ => none, []⟩
  | next {c d : Course} {r : Option (Switch × Landing)} (steps : Steps start boot c)
      (step : c.Step r d) : Steps start boot d

theorem Step.run (hrun : Run start boot c) (hstep : c.Step r d) : Run start boot d := by
  cases hstep with
  | compute does => exact hrun.compute does
  | create free entry done => exact hrun.create free entry done
  | register mem done => exact hrun.register mem done
  | setState done => exact hrun.setState done
  | tick room done => exact hrun.tick room done
  | yield room done => exact hrun.yield room done

theorem Steps.run (hsteps : Steps start boot c) : Run start boot c := by
  induction hsteps with
  | begin empty stack done => exact .begin empty stack done
  | next _ step ih => exact step.run ih

/-! ## What a step does -/

/-- Of what a step does, all that address spaces depend on. -/
structure Moved (c : Course) (r : Option (Switch × Landing)) (d : Course) : Prop where
  size : c.size ≤ d.size
  root : ∀ i < c.size, d.root i = c.root i
  call : ∀ i < c.size, d.call i = r.elim (c.call i) (c.callAfter ·.1 i)
  space : d.space = c.entered r
  stayed : r = none → d.current = c.current
  switched : ∀ sw place, r = some (sw, place) → ∃ i, c.Switched sw place d.machine i

theorem Moved.quiet (hfiles : KeepsFiles c.machine.scheduler d.machine.scheduler)
    (hcurrent : d.current = c.current) (hcall : d.call = c.call) (hspace : d.space = c.space) :
    Moved c none d where
  size := hfiles.size.ge
  root i _ := congrArg Registers.cr3 (hfiles.registers i)
  call i _ := congrFun hcall i
  space := hspace
  stayed _ := hcurrent
  switched := nofun

theorem Orderly.moved_register (h : c.Orderly) {x : ProcessDescriptor × Span}
    {result : Except SchedulerError Pid} (hdone : Kernel.enlist x.1 c.machine = .ok result m) :
    Moved c none (c.registered x result m) := by
  obtain ⟨-, -, hprocessor, hcases⟩ := Kernel.enlist_eq_ok hdone
  have hspace : (c.registered x result m).space = c.space := congrArg Registers.cr3 hprocessor
  rcases hcases with ⟨pid, rfl, henlist⟩ | ⟨⟨error, rfl⟩, hsame⟩
  · obtain ⟨-, -, hresult⟩ := Scheduler.enlist_eq_ok henlist
    constructor
    case size =>
      change c.size ≤ m.scheduler.table.size
      rw [hresult, Array.size_push]
      exact Nat.le_succ _
    case root =>
      intro i hi
      have hold : i ≠ c.machine.scheduler.table.size := Nat.ne_of_lt hi
      have hfile := registersAt_enlist henlist i
      rw [if_neg hold] at hfile
      exact congrArg Registers.cr3 hfile
    case call =>
      intro i hi
      exact call_registered_of_lt hi
    case space => exact hspace
    case stayed =>
      intro _
      exact h.current_enlist henlist
    case switched => exact nofun
  · exact .quiet ⟨congrArg (·.table.size) hsame, fun i => congrArg (registersAt · i) hsame⟩
      (congrArg Scheduler.current hsame) rfl hspace

/-- The register files keep their address spaces over a switch. -/
theorem Switched.root_eq (h : c.Switched sw place m i) (j : ℕ) :
    (registersAt m.scheduler j).cr3 = c.root j := by
  by_cases hj : j = i
  · rw [hj]
    exact h.cr3
  · exact congrArg Registers.cr3 (h.files j hj)

theorem Entered.moved (h : c.Entered r m) {stops : Panic → Prop}
    (houtcome : Outcome c stops (.ok r m)) : Moved c r (c.after r m) := by
  have hsize := h.size
  have hspace := h.space
  cases houtcome with
  | stayed memory files current => exact .quiet files current rfl hspace
  | switched hswitched =>
    constructor
    case size => exact hsize.ge
    case root =>
      intro j _
      exact hswitched.root_eq j
    case call =>
      intro j _
      rfl
    case space => exact hspace
    case stayed => exact nofun
    case switched =>
      rintro _ _ ⟨⟩
      exact ⟨_, hswitched⟩

theorem Step.moved (hstep : c.Step r d) (h : c.Orderly) : Moved c r d := by
  cases hstep with
  | compute does space root =>
    obtain ⟨k, f, -, hscheduler⟩ := does.scheduler
    have hsize : c.size = _ := (size_withRegisters c.machine.scheduler k f).symm
    constructor
    case size =>
      change c.size ≤ (Machine.scheduler _).table.size
      rw [hscheduler, hsize]
    case root =>
      intro i _
      exact root i
    case call =>
      intro i _
      rfl
    case space => exact space
    case stayed =>
      intro _
      change (Machine.scheduler _).current = _
      rw [hscheduler]
      rfl
    case switched => exact nofun
  | create free entry done =>
    obtain ⟨-, hprocessor, htable, -⟩ := newProcess_eq_ok done
    exact .quiet htable.keepsFiles htable.current rfl (congrArg Registers.cr3 hprocessor)
  | register mem done => exact h.moved_register done
  | setState done =>
    obtain ⟨-, -, hprocessor, -⟩ := Kernel.setState_eq_ok done
    obtain ⟨hfiles, hcurrent⟩ := keepsFiles_of_setState done
    exact .quiet hfiles hcurrent rfl (congrArg Registers.cr3 hprocessor)
  | tick room done =>
    obtain ⟨houtcome, hentered⟩ := h.tick room
    rw [done] at houtcome
    exact (hentered _ _ done).moved houtcome
  | yield room done =>
    obtain ⟨houtcome, hentered⟩ := h.yield room
    rw [done] at houtcome
    exact (hentered _ _ done).moved houtcome

/-! ## Whose address space is loaded -/

/-- The code that runs at the start has no address space of its own. -/
theorem root_begin {pid : Pid} (hempty : start.scheduler = .empty)
    (hdone : spawn (adoptBoot true) start = .ok (.ok pid) m) (i : ℕ) :
    (registersAt m.scheduler i).cr3 = 0 := by
  obtain ⟨p, m₁, hadopt, henlist⟩ := spawn_eq_ok hdone
  obtain ⟨-, -, hsame, hzero⟩ := adoptBoot_eq_ok hadopt
  obtain ⟨-, -, -, ⟨_, -, htable⟩ | ⟨⟨e, he⟩, -⟩⟩ := Kernel.enlist_eq_ok henlist
  · rw [registersAt_enlist htable]
    by_cases hi : i = m₁.scheduler.table.size
    · rw [if_pos hi, hzero p rfl]
      rfl
    · have hnone : m₁.scheduler.table = #[] := hsame.table.trans (congrArg table hempty)
      rw [if_neg hi, registersAt, hnone]
      rfl
  · contradiction

/-- Whoever has the processor and an address space of its own is in that one. -/
theorem Steps.space_eq_root (hsteps : Steps start boot c) {i : ℕ} (hi : c.current = some i)
    (hroot : c.root i ≠ 0) : c.space = c.root i := by
  induction hsteps generalizing i with
  | begin empty stack done => exact absurd (root_begin empty done i) hroot
  | @next c d r steps step ih =>
    have horderly := steps.run.orderly
    have hmoved := step.moved horderly
    cases r with
    | none =>
      rw [hmoved.stayed rfl] at hi
      have hsame := hmoved.root i (horderly.current_lt hi)
      rw [hsame] at hroot ⊢
      exact hmoved.space.trans (ih hi hroot)
    | some x =>
      obtain ⟨j, hswitched⟩ := hmoved.switched x.1 x.2 rfl
      obtain rfl := Option.some.inj (hi.symm.trans hswitched.next)
      have hsame : d.root x.1.next = c.root x.1.next := hswitched.root_eq x.1.next
      rw [hsame] at hroot ⊢
      exact hmoved.space.trans (if_neg hroot)

/-- The address space of the process in a slot, if it has one of its own. -/
def ownRoot (c : Course) (i : ℕ) : List UInt64 := if c.root i = 0 then [] else [c.root i]

theorem head?_ownRoot_append (c : Course) (i : ℕ) (roots : List UInt64) (active : UInt64) :
    (c.ownRoot i ++ roots).head?.getD active = spaceAfter (c.root i) (roots.head?.getD active) := by
  rw [ownRoot, spaceAfter]
  by_cases hroot : c.root i = 0
  · rw [if_pos hroot, if_pos hroot, List.nil_append]
  · rw [if_neg hroot, if_neg hroot]
    rfl

/-- The process in slot `i` gives way in `c`, and has not been given the processor again. Meanwhile
it was given to processes with address spaces `roots` of their own, the latest first. -/
inductive Away (i : ℕ) (c : Course) : List UInt64 → Course → Prop
  | leave {d : Course} {sw : Switch} {place : Landing} (step : c.Step (some (sw, place)) d)
      (previous : sw.previous = some i) : Away i c (c.ownRoot sw.next) d
  | quiet {roots : List UInt64} {d e : Course} (away : Away i c roots d) (step : d.Step none e) :
      Away i c roots e
  | switch {roots : List UInt64} {d e : Course} {sw : Switch} {place : Landing}
      (away : Away i c roots d) (step : d.Step (some (sw, place)) e) (other : sw.next ≠ i) :
      Away i c (d.ownRoot sw.next ++ roots) e

/-- What is so while the process in slot `i` is away. -/
structure Absent (i : ℕ) (c : Course) (roots : List UInt64) (d : Course) : Prop where
  was : c.current = some i
  lt : i < d.size
  current : d.current ≠ some i
  call : d.call i ≠ none
  root : d.root i = c.root i
  space : d.space = roots.head?.getD c.space

theorem Absent.leave (hmoved : Moved c (some (sw, place)) d) (h : c.Orderly)
    (hprevious : sw.previous = some i) : Absent i c (c.ownRoot sw.next) d := by
  obtain ⟨j, hswitched⟩ := hmoved.switched sw place rfl
  obtain rfl := Option.some.inj (hprevious.symm.trans hswitched.previous)
  have hlt := h.current_lt hswitched.current
  constructor
  case was => exact hswitched.current
  case lt => exact hlt.trans_le hmoved.size
  case current =>
    intro hcurrent
    exact hswitched.other (Option.some.inj (hswitched.next.symm.trans hcurrent))
  case call =>
    rw [hmoved.call i hlt, Option.elim, callAfter, if_pos hprevious]
    exact Option.some_ne_none _
  case root => exact hmoved.root i hlt
  case space =>
    have hhead := head?_ownRoot_append c sw.next [] c.space
    rw [List.append_nil] at hhead
    exact hmoved.space.trans hhead.symm

theorem Absent.quiet (h : Absent i c roots d) (hmoved : Moved d none e) : Absent i c roots e := by
  constructor
  case was => exact h.was
  case lt => exact h.lt.trans_le hmoved.size
  case current => exact hmoved.stayed rfl ▸ h.current
  case call =>
    rw [hmoved.call i h.lt]
    exact h.call
  case root => exact (hmoved.root i h.lt).trans h.root
  case space => exact hmoved.space.trans h.space

theorem Absent.switch (h : Absent i c roots d) (hmoved : Moved d (some (sw, place)) e)
    (hother : sw.next ≠ i) : Absent i c (d.ownRoot sw.next ++ roots) e := by
  obtain ⟨j, hswitched⟩ := hmoved.switched sw place rfl
  constructor
  case was => exact h.was
  case lt => exact h.lt.trans_le hmoved.size
  case current =>
    intro hcurrent
    exact hother (Option.some.inj (hswitched.next.symm.trans hcurrent))
  case call =>
    have hprevious : sw.previous ≠ some i := by
      rw [hswitched.previous, ← hswitched.current]
      exact h.current
    rw [hmoved.call i h.lt, Option.elim, callAfter, if_neg hprevious, if_neg (Ne.symm hother)]
    exact h.call
  case root => exact (hmoved.root i h.lt).trans h.root
  case space =>
    rw [head?_ownRoot_append, ← h.space]
    exact hmoved.space

theorem Away.absent (hsteps : Steps start boot c) (haway : Away i c roots d) :
    Steps start boot d ∧ Absent i c roots d := by
  induction haway with
  | leave step previous =>
    have horderly := hsteps.run.orderly
    exact ⟨hsteps.next step, .leave (step.moved horderly) horderly previous⟩
  | quiet _ step ih =>
    obtain ⟨hd, habsent⟩ := ih
    exact ⟨hd.next step, habsent.quiet (step.moved hd.run.orderly)⟩
  | switch _ step other ih =>
    obtain ⟨hd, habsent⟩ := ih
    exact ⟨hd.next step, habsent.switch (step.moved hd.run.orderly) other⟩

/-- A process that gave way in `c` comes back to that call. If it has an address space of its own,
that one is loaded, as it was at the call. If not, that of the last process with one of its own is
that was given the processor meanwhile; without any, the one that was loaded at the call. -/
theorem Steps.address_space_on_return (hsteps : Steps start boot c) (haway : Away i c roots d)
    (hback : d.Step (some (sw, place)) e) (hnext : sw.next = i) :
    place = .resumed ∧ (c.root i ≠ 0 → c.space = c.root i ∧ e.space = c.root i) ∧
      (c.root i = 0 → e.space = roots.head?.getD c.space) := by
  obtain ⟨hd, habsent⟩ := haway.absent hsteps
  have hmoved := hback.moved hd.run.orderly
  obtain ⟨j, hswitched⟩ := hmoved.switched sw place rfl
  have hspace : e.space = spaceAfter (c.root i) d.space := by
    rw [← habsent.root, ← hnext]
    exact hmoved.space
  refine ⟨?_, fun hroot => ⟨?_, ?_⟩, fun hroot => ?_⟩
  · obtain ⟨k, hk⟩ := Option.ne_none_iff_exists'.mp habsent.call
    rw [← hnext] at hk
    exact (hswitched.resumed k hk).1
  · exact hsteps.space_eq_root habsent.was hroot
  · rw [hspace, spaceAfter, if_neg hroot]
  · rw [hspace, spaceAfter, if_pos hroot, habsent.space]

/-! ## The boot code and one worker -/

namespace OneWorker

/-- The worker has given way, and the boot code is back. -/
def returned : Course :=
  working.after (some (⟨some 1, 0, some 2, 1⟩, .resumed)) (Kernel.after Kernel.yield worked)

theorem yield_again : Kernel.yield returned.machine =
    .ok (some (⟨some 0, 1, some 1, 2⟩, .resumed)) (Kernel.after Kernel.yield returned.machine) :=
  eq_ok_of_answer? (by decide +kernel)

theorem steps_computing : Steps off bootStack computing := by
  have hbegun : Steps off bootStack begun := .begin rfl backs_bootStack spawn_eq
  have hmade := hbegun.next (.create free_stack (show Outside plan.entry from rfl) newProcess_eq)
  exact (hmade.next (.register List.mem_cons_self enlist_eq)).next
    (.compute computes_computed rfl fun _ => rfl)

/-- The boot code waits while the worker runs. -/
theorem away_working : Away 0 computing [0x5000] working := by
  have hroots : computing.ownRoot 1 = [0x5000] := by decide +kernel
  have hleft := Away.leave (Step.yield room_computing yield_eq) rfl
  rw [hroots] at hleft
  exact hleft.quiet (.compute computes_worked rfl fun _ => rfl)

/-- The worker waits while the boot code runs. -/
theorem away_returned : Away 1 working [] returned := by
  have hroots : working.ownRoot 0 = [] := by decide +kernel
  have hleft := Away.leave (Step.yield room_working yield_back) rfl
  rwa [hroots] at hleft

theorem room_returned : returned.HasRoom := by
  have hroom : returned.current = some 0 ∧
      (returned.stack 0).base + 24 ≤ returned.machine.processor.rsp.toNat ∧
      returned.machine.processor.rsp.toNat ≤ (returned.stack 0).base + (returned.stack 0).size := by
    decide +kernel
  exact ⟨0, hroom.1, hroom.2.1, hroom.2.2⟩

end OneWorker

/-- The boot code comes back to the address space of the worker, and the worker to its own. -/
theorem Steps.address_space_on_return_of_one_worker :
    ∃ start boot c d e f back again, Steps start boot c ∧ Away 0 c [0x5000] d ∧
      d.Step (some (back, .resumed)) e ∧ back.next = 0 ∧ c.root 0 = 0 ∧ e.space = 0x5000 ∧
      Away 1 d [] e ∧ e.Step (some (again, .resumed)) f ∧ again.next = 1 ∧ d.root 1 = 0x5000 ∧
      f.space = d.space := by
  have hback := Step.yield OneWorker.room_working OneWorker.yield_back
  have hagain := Step.yield OneWorker.room_returned OneWorker.yield_again
  have hworking := (OneWorker.away_working.absent OneWorker.steps_computing).1
  have hboot : OneWorker.computing.root 0 = 0 := by decide +kernel
  have hworker : OneWorker.working.root 1 = 0x5000 := by decide +kernel
  obtain ⟨-, -, hnone⟩ :=
    OneWorker.steps_computing.address_space_on_return OneWorker.away_working hback rfl
  obtain ⟨-, hown, -⟩ := hworking.address_space_on_return OneWorker.away_returned hagain rfl
  obtain ⟨hactive, hsame⟩ := hown (by rw [hworker]; decide)
  exact ⟨_, _, _, _, _, _, _, _, OneWorker.steps_computing, OneWorker.away_working, hback, rfl,
    hboot, hnone hboot, OneWorker.away_returned, hagain, rfl, hworker, hsame.trans hactive.symm⟩

/-- The boot code gives way in one address space, and comes back from its call in another one. -/
theorem boot_code_returns_elsewhere :
    ∃ start boot c roots d e back, Steps start boot c ∧ Away 0 c roots d ∧
      d.Step (some (back, .resumed)) e ∧ back.next = 0 ∧ c.space = 0x1000 ∧ e.space = 0x5000 :=
  ⟨_, _, _, _, _, _, _, OneWorker.steps_computing, OneWorker.away_working,
    .yield OneWorker.room_working OneWorker.yield_back, rfl, by decide +kernel, by decide +kernel⟩

end Course

end KernelCore
