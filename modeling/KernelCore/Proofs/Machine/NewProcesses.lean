import KernelCore.Proofs.Machine.Courses
import KernelCore.Proofs.Machine.Startup

/-!
# New processes

A plan whose stack has no room for the first load is refused before anything is written. Any other
process gets a sentinel, and is at its entry once its register file is loaded: with the stack
pointer on the sentinel, and two more words written below it, which are in the stack like the
sentinel.
-/

namespace KernelCore

open ContextSwitch Kernel

-- comparing memories is not to come down to writing bytes
seal Memory.setWord

variable {c : ProcessPlan} {m : Machine} {memory : Bool} {top a : ℕ} {p : Processor}

/-! ## Stacks -/

namespace ProcessPlan

/-- The stack wraps around the end of the address space, or its end, rounded down to 16 bytes,
leaves less than three words. -/
def Unfit (c : ProcessPlan) : Prop :=
  2 ^ 64 ≤ c.stack.base + c.stack.size ∨
    (c.stack.base + c.stack.size) / 16 * 16 < c.stack.base + 24

theorem stackTop?_eq_none : c.stackTop? = none ↔ c.Unfit := by
  have hbase : c.stack.base = c.stackBase.val := rfl
  have hsize : c.stack.size = c.stackSize.toNat := rfl
  rw [stackTop?, Unfit, hbase, hsize]
  simp only [ite_eq_right_iff, reduceCtorEq, imp_false]
  omega

/-- The end of the stack, as its process has it. -/
def roundedTop (c : ProcessPlan) : ℕ := (c.stack.base + c.stack.size) / 16 * 16

theorem stackTop?_of_fit (h : ¬ c.Unfit) : c.stackTop? = some c.roundedTop := by
  have hbase : c.stack.base = c.stackBase.val := rfl
  have hsize : c.stack.size = c.stackSize.toNat := rfl
  rw [Unfit, hbase, hsize] at h
  rw [stackTop?, roundedTop, hbase, hsize]
  exact if_pos (by omega)

/-- Three words below the end are in the stack. -/
theorem roundedTop_bounds (h : ¬ c.Unfit) : c.stack.base + 24 ≤ c.roundedTop ∧
    c.roundedTop ≤ c.stack.base + c.stack.size ∧ c.roundedTop < 2 ^ 64 ∧
      c.roundedTop % 16 = 0 := by
  rw [Unfit] at h
  rw [roundedTop]
  omega

/-- The sentinel's word is in the stack. -/
theorem covers_sentinel {ram : Span} (h : ¬ c.Unfit)
    (hstack : ram.covers c.stack.base c.stack.size = true) :
    ram.covers (sentinelAddress c.roundedTop) 8 = true := by
  obtain ⟨hbase, htop, -, -⟩ := roundedTop_bounds h
  rw [Span.covers_iff] at hstack ⊢
  rw [sentinelAddress]
  omega

theorem toNat_rsp (h : ¬ c.Unfit) :
    ((c.registers c.roundedTop).get .rsp).toNat = c.roundedTop - 8 := by
  obtain ⟨-, -, htop, -⟩ := roundedTop_bounds h
  have hsize : UInt64.size = 2 ^ 64 := rfl
  exact UInt64.toNat_ofNat_of_lt' (by rw [sentinelAddress]; omega)

theorem cr3_of_some {f : Frame} (h : c.root = some f) (top : ℕ) :
    ((c.registers top).get .cr3).toNat = f.base.val := by
  have hregisters : (c.registers top).get .cr3 = UInt64.ofNat f.base.val := by
    rw [registers, h]
    rfl
  have hlt := f.base.lt
  have hsize : UInt64.size = 2 ^ 64 := rfl
  rw [hregisters]
  exact UInt64.toNat_ofNat_of_lt' (by omega)

/-- A stored zero, which a root at address 0 comes to as well, keeps the address space. -/
theorem cr3_eq_zero (h : ∀ f, c.root = some f → f.base.val = 0) (top : ℕ) :
    (c.registers top).get .cr3 = 0 := by
  cases hroot : c.root with
  | none =>
    rw [registers, hroot]
    rfl
  | some f =>
    rw [← UInt64.toNat_inj, cr3_of_some hroot, h f hroot]
    rfl

end ProcessPlan

/-! ## Creation -/

theorem newProcess_refused (h : c.Unfit) (memory : Bool) (m : Machine) :
    newProcess c memory m = .ok (.error .invalidStack) m := by
  rw [newProcess, ProcessPlan.stackTop?_eq_none.mpr h]
  rfl

/-- Making a descriptor fails for want of memory only. -/
theorem eq_outOfMemory_of_newDescriptor {s : Scheduler} {privilege : Ring}
    {heapBase heapSize : UInt64} {thread : ThreadState} {e : SchedulerError}
    (h : s.newDescriptor privilege heapBase heapSize thread memory = .ok (.error e)) :
    e = .outOfMemory := by
  rw [Scheduler.newDescriptor] at h
  split at h
  · split at h
    · contradiction
    · cases Except.ok.inj h
  · exact (Except.error.inj (Except.ok.inj h)).symm

theorem eq_error_of_keepDescriptor {m' : Machine} {e : SchedulerError}
    {r : Except Panic (Except SchedulerError (ProcessDescriptor × Scheduler))}
    (h : keepDescriptor r m = .ok (.error e) m') : r = .ok (.error e) := by
  rcases r with stop | (e' | made)
  · contradiction
  · simp only [keepDescriptor, checked, bind, EStateM.bind, pure, EStateM.pure] at h
    split at h
    · cases h
      rfl
    · cases h
      rfl
  · cases h

/-- A process is refused as having an invalid stack only if its stack is unfit. -/
theorem unfit_of_refused {m' : Machine}
    (h : newProcess c memory m = .ok (.error .invalidStack) m') : c.Unfit := by
  by_contra hfit
  rw [newProcess, ProcessPlan.stackTop?_of_fit hfit] at h
  simp only [bind, EStateM.bind, storeWord, get_eq] at h
  by_cases hcovers : m.ram.covers (ProcessPlan.sentinelAddress c.roundedTop) 8 = true
  · rw [if_pos hcovers] at h
    have hmade := eq_error_of_keepDescriptor h
    cases eq_outOfMemory_of_newDescriptor hmade
  · rw [if_neg hcovers] at h
    contradiction

/-- On a fit stack that is memory a process is made, and one word is written. -/
theorem newProcess_of_fit (hfit : ¬ c.Unfit)
    (hstack : m.ram.covers c.stack.base c.stack.size = true)
    (hpid : m.scheduler.nextPid + 1 < UInt32.size) : ∃ d,
      newProcess c true m = .ok (.ok d) { m with
        memory := m.memory.setWord (c.roundedTop - 8) 0
        scheduler := { m.scheduler with nextPid := m.scheduler.nextPid + 1 } } ∧
      d.thread.registers = c.registers c.roundedTop := by
  obtain ⟨d, hmade, -, hthread⟩ := newProcess_of_stackTop (ProcessPlan.stackTop?_of_fit hfit)
    (ProcessPlan.covers_sentinel hfit hstack) hpid
  exact ⟨d, hmade, by rw [hthread]; rfl⟩

/-! ## The first load -/

/-- `rdi` points at a file with the registers `f`, apart from a stack. The stack is memory, and its
bytes are those of `k`. -/
structure Loadable (p : Processor) (a : ℕ) (f : Registers) (stack : Span) (k : Memory) : Prop where
  file : p.AtFile a
  holds : Holds p a f.get
  apart : stack.base + stack.size ≤ a ∨ a + 152 ≤ stack.base
  there : p.Has stack.base stack.size
  untouched : ∀ x, stack.base ≤ x → x < stack.base + stack.size → p.memory.byte x = k.byte x

/-- A process is at its entry. All that was written is two words below its stack pointer, which is
at the sentinel. -/
structure Entered (c : ProcessPlan) (p q : Processor) : Prop where
  rip : q.get .rip = c.entry
  rdi : q.get .rdi = c.argument
  rflags : q.get .rflags = 0x202
  zero : ∀ r, r ∉ [.rip, .rdi, .rflags, .rsp, .cr3] → q.get r = 0
  rsp : (q.get .rsp).toNat = c.roundedTop - 8
  aligned : (q.get .rsp).toNat % 16 = 8
  sentinel : q.memory.word (q.get .rsp).toNat = 0
  memory : q.memory =
    (p.memory.setWord (c.roundedTop - 16) c.entry).setWord (c.roundedTop - 24) 0x202
  own : ∀ f, c.root = some f → f.base.val ≠ 0 → (q.get .cr3).toNat = f.base.val
  kept : (∀ f, c.root = some f → f.base.val = 0) → q.get .cr3 = p.get .cr3

theorem runs_entered (hfit : ¬ c.Unfit) {k : Memory}
    (h : Loadable p a (c.registers c.roundedTop) c.stack (k.setWord (c.roundedTop - 8) 0)) :
    ∃ n q, n ≤ 27 ∧ Processor.Runs code n (p.goto enterPosition) q ∧ Entered c p q := by
  obtain ⟨hfile, hholds, hapart, hthere, huntouched⟩ := h
  obtain ⟨hbase, htop, -, haligned⟩ := ProcessPlan.roundedTop_bounds hfit
  have hrsp := ProcessPlan.toNat_rsp hfit
  obtain ⟨n, u, hn, hentering, hsame, hspace⟩ := runs_entering hfile
  have hroom : StackRoom u a (c.registers c.roundedTop).get := by
    refine ⟨by omega, ?_, by omega⟩
    rw [Processor.Has, hsame.spans]
    exact hthere.mono (by omega) (by omega)
  have hheld : Holds u a (c.registers c.roundedTop).get := by
    intro r
    rw [hsame.memory, hholds r]
  obtain ⟨q, hloading, hregisters, hcr3, hmemory, -⟩ :=
    runs_loading (hfile.of_eq hsame.rdi hsame.spans) hheld hroom
  have hrsp' : (q.get .rsp).toNat = c.roundedTop - 8 := by
    rw [hregisters .rsp (by decide), hrsp]
  rw [hsame.memory, hrsp] at hmemory
  rw [hholds .cr3] at hspace
  refine ⟨n + 20, q, by omega, hentering.trans hloading, ?_⟩
  constructor
  · rw [hregisters .rip (by decide)]
    rfl
  · rw [hregisters .rdi (by decide)]
    rfl
  · rw [hregisters .rflags (by decide)]
    rfl
  · intro r hr
    rw [hregisters r (by rintro rfl; exact hr (by decide))]
    cases r <;> first | rfl | exact absurd (by decide) hr
  · exact hrsp'
  · rw [hrsp']
    omega
  · have hsentinel : p.memory.word (c.roundedTop - 8) = 0 := by
      rw [Memory.word_congr fun x h₁ h₂ => huntouched x (by omega) (by omega),
        Memory.word_setWord]
    rw [hrsp', hmemory, word_loadedMemory (by omega) (.inr (Nat.le_refl _)), hsentinel]
  · rw [hmemory, loadedMemory, Nat.sub_sub, Nat.sub_sub]
    rfl
  · intro f hf hne
    have hroot := ProcessPlan.cr3_of_some hf c.roundedTop
    have hne' : (c.registers c.roundedTop).get .cr3 ≠ 0 := by
      intro hzero
      rw [hzero] at hroot
      exact hne hroot.symm
    rw [hcr3, hspace, spaceAfter, if_neg hne', hroot]
  · intro hzero
    rw [hcr3, hspace, spaceAfter, if_pos (ProcessPlan.cr3_eq_zero hzero _)]

/-! ## Processors that load a file -/

/-- A processor in the address space at 0x1000, with the registers `f` in memory at `a`, where `rdi`
points. -/
def loader (f : Registers) (k : Memory) (a : ℕ) (spans : List Span) : Processor :=
  ⟨{ Registers.zero with rdi := UInt64.ofNat a, cr3 := 0x1000 }, f.store k a, spans, []⟩

theorem loadable_loader {f : Registers} {k : Memory} {stack : Span} {spans : List Span}
    (ha : a + 152 < 2 ^ 64) (hfile : ⟨a, 152⟩ ∈ spans) (hstack : stack ∈ spans)
    (hapart : stack.base + stack.size ≤ a ∨ a + 152 ≤ stack.base) :
    Loadable (loader f k a spans) a f stack k := by
  have hsize : UInt64.size = 2 ^ 64 := rfl
  refine ⟨⟨UInt64.toNat_ofNat_of_lt' (by omega), by omega, ⟨_, hfile, ?_⟩⟩, ?_, hapart,
    ⟨stack, hstack, ?_⟩, ?_⟩
  · exact Span.covers_iff.mpr ⟨Nat.le_refl _, Nat.le_refl _⟩
  · exact Registers.word_store f k a
  · exact Span.covers_iff.mpr ⟨Nat.le_refl _, Nat.le_refl _⟩
  · intro x h₁ h₂
    refine Registers.agreeOutside_store f k a x ?_
    rw [Set.mem_Ico]
    omega

/-- A kernel thread on the 24 bytes from 0x10008 on, with an address space of its own. -/
def threeWordPlan (root : Frame) : ProcessPlan :=
  { ProcessPlan.kernel 0x1000 7 ⟨0x10008, by decide⟩ 24 with root := some root }

/-- A machine with memory for that stack. -/
def threeWordMachine : Machine := .off none .zeroed ⟨0x10000, 0x1000⟩ 0x1000

theorem fit_threeWordPlan (root : Frame) : ¬ (threeWordPlan root).Unfit := by
  have hunfit : (threeWordPlan root).Unfit ↔
      2 ^ 64 ≤ 0x10008 + 24 ∨ (0x10008 + 24) / 16 * 16 < 0x10008 + 24 := Iff.rfl
  rw [hunfit]
  decide

/-- A process with a root at address 0 does not get to the address space there. -/
theorem root_at_zero_is_not_loaded :
    ∃ (c : ProcessPlan) (f : Frame) (m m' : Machine) (d : ProcessDescriptor) (p q : Processor)
      (a : ℕ), c.root = some f ∧ newProcess c true m = .ok (.ok d) m' ∧
      Loadable p a d.thread.registers c.stack m'.memory ∧
      Processor.run code steps (p.goto enterPosition) = some q ∧ q.get .rip = c.entry ∧
      (q.get .cr3).toNat ≠ f.base.val := by
  let c := threeWordPlan ⟨0, by decide⟩
  have hfit : ¬ c.Unfit := fit_threeWordPlan _
  obtain ⟨d, hmade, hregisters⟩ :=
    newProcess_of_fit (m := threeWordMachine) hfit (by decide) (by decide)
  obtain ⟨p, hload, hcr3⟩ : ∃ p, Loadable p 0x20000 d.thread.registers c.stack
      (threeWordMachine.memory.setWord (c.roundedTop - 8) 0) ∧ p.get .cr3 = 0x1000 :=
    ⟨loader d.thread.registers _ 0x20000 [⟨0x20000, 152⟩, c.stack],
      loadable_loader (by decide) (by simp) (by simp) (.inl (by decide)), rfl⟩
  have hload' := hload
  rw [hregisters] at hload'
  obtain ⟨n, q, hn, hruns, hentered⟩ := runs_entered hfit hload'
  refine ⟨c, _, threeWordMachine, _, d, p, q, _, rfl, hmade, hload, ?_, hentered.rip, ?_⟩
  · have hsteps : steps = n + (64 - n) := by
      rw [steps]
      omega
    rw [hsteps, hruns]
    refine run_of_outside ?_ _
    rw [hentered.rip, Outside]
    decide
  · rw [hentered.kept (by rintro f hf; cases hf; rfl), hcr3]
    decide

/-- A new process starts at its entry on its own stack. It is refused exactly if its stack is unfit,
and then nothing is changed. Otherwise the sentinel, a word of its stack, is all that is written,
and whatever the processor does at the time, loading the register file gets to the entry, with the
stack pointer on the sentinel and two more words written below it. -/
theorem new_process_starts_at_entry (c : ProcessPlan) (m : Machine) :
    (∀ memory, ((∃ m', newProcess c memory m = .ok (.error .invalidStack) m') ↔ c.Unfit) ∧
      (c.Unfit → newProcess c memory m = .ok (.error .invalidStack) m)) ∧
    (¬ c.Unfit → m.ram.covers c.stack.base c.stack.size = true →
      m.scheduler.nextPid + 1 < UInt32.size →
      c.stack.base + 24 ≤ c.roundedTop ∧ c.roundedTop ≤ c.stack.base + c.stack.size ∧
      ∃ d m', newProcess c true m = .ok (.ok d) m' ∧ m' = { m with
          memory := m.memory.setWord (c.roundedTop - 8) 0
          scheduler := { m.scheduler with nextPid := m.scheduler.nextPid + 1 } } ∧
        ∀ p a, Loadable p a d.thread.registers c.stack m'.memory →
          ∃ n q, n ≤ 27 ∧ Processor.Runs code n (p.goto enterPosition) q ∧ Entered c p q) := by
  refine ⟨fun memory => ⟨⟨fun ⟨_, hrefused⟩ => unfit_of_refused hrefused,
    fun hunfit => ⟨m, newProcess_refused hunfit memory m⟩⟩,
    fun hunfit => newProcess_refused hunfit memory m⟩, fun hfit hstack hpid => ?_⟩
  obtain ⟨hbase, htop, -, -⟩ := ProcessPlan.roundedTop_bounds hfit
  obtain ⟨d, hmade, hregisters⟩ := newProcess_of_fit hfit hstack hpid
  refine ⟨hbase, htop, d, _, hmade, rfl, fun p a hload => ?_⟩
  rw [hregisters] at hload
  exact runs_entered hfit hload

/-- On the smallest stack there is, with an address space of its own. -/
theorem new_process_starts_at_entry_on_three_words :
    ∃ c d m' p n q, c = threeWordPlan ⟨5, by decide⟩ ∧
      newProcess c true threeWordMachine = .ok (.ok d) m' ∧
      m'.memory = threeWordMachine.memory.setWord 0x10018 0 ∧
      Loadable p 0x20000 d.thread.registers c.stack m'.memory ∧
      Processor.Runs code n (p.goto enterPosition) q ∧ q.get .rip = 0x1000 ∧ q.get .rdi = 7 ∧
      (q.get .rsp).toNat = 0x10018 ∧ (q.get .cr3).toNat = 0x5000 ∧
      q.memory = (p.memory.setWord 0x10010 0x1000).setWord 0x10008 0x202 := by
  obtain ⟨c, hc⟩ : ∃ c, c = threeWordPlan ⟨5, by decide⟩ := ⟨_, rfl⟩
  have hfit : ¬ c.Unfit := hc ▸ fit_threeWordPlan _
  have hstack : c.stack = ⟨0x10008, 24⟩ := by
    rw [hc]
    rfl
  have htop : c.roundedTop = 0x10020 := by
    rw [ProcessPlan.roundedTop, hstack]
    rfl
  obtain ⟨-, hfits⟩ := new_process_starts_at_entry c threeWordMachine
  obtain ⟨-, -, d, m', hmade, hm', hloads⟩ :=
    hfits hfit (by rw [hstack]; decide) (by decide)
  have hload : Loadable (loader d.thread.registers m'.memory 0x20000 [⟨0x20000, 152⟩, c.stack])
      0x20000 d.thread.registers c.stack m'.memory :=
    loadable_loader (by decide) (by simp) (by simp) (.inl (by rw [hstack]; decide))
  obtain ⟨n, q, -, hruns, hentered⟩ := hloads _ _ hload
  have hmemory := hentered.memory
  have hrsp := hentered.rsp
  have hroot := hentered.own ⟨5, by decide⟩ (by rw [hc]; rfl) (by decide)
  have hentry : c.entry = 0x1000 ∧ c.argument = 7 := by
    rw [hc]
    exact ⟨rfl, rfl⟩
  rw [htop, hentry.1] at hmemory
  rw [htop] at hrsp
  refine ⟨c, d, m', _, n, q, hc, hmade, ?_, hload, hruns, hentered.rip.trans hentry.1,
    hentered.rdi.trans hentry.2, hrsp, hroot, hmemory⟩
  rw [hm', htop]

end KernelCore
