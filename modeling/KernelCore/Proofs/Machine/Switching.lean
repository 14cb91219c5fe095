import KernelCore.Proofs.Cpu.ContextSwitch
import KernelCore.Proofs.Machine.Tasks

/-!
# Switching processes on a machine

A process that does not have the processor is parked: its stack pointer is in its stack, and it
either waits for its first switch, or in the call with which it gave way. A switch from a process
with some room on its stack to a parked one never fails. It parks the one, and the other one goes on
with the registers of its call.
-/

namespace KernelCore

open ContextSwitch

seal Memory.setWord

/-- The spans have no byte in common. -/
def Span.Apart (s t : Span) : Prop := s.base + s.size ≤ t.base ∨ t.base + t.size ≤ s.base

theorem Span.Apart.symm {s t : Span} (h : s.Apart t) : t.Apart s := by
  unfold Apart at h ⊢
  omega

namespace Machine

variable {m : Machine} {i j : ℕ} {s : Span}

/-- The span is memory for a stack: it is there, and no descriptors are in it. -/
structure Backs (m : Machine) (s : Span) : Prop where
  there : m.ram.covers s.base s.size = true ∨ bootStack.covers s.base s.size = true
  apart : s.Apart descriptors

theorem Backs.congr {m' : Machine} (h : m.Backs s) (hram : m'.ram = m.ram) : m'.Backs s := by
  refine ⟨?_, h.apart⟩
  rw [hram]
  exact h.there

theorem toNat_registerFile (hi : i < 1024) :
    (registerFile i).toNat = descriptors.base + i * 256 := by
  have hbase : descriptors.base = 0xffffffff90000000 := rfl
  have hsize : UInt64.size = 2 ^ 64 := rfl
  rw [registerFile, UInt64.toNat_ofNat_of_lt' (by omega)]

end Machine

namespace Kernel

open Machine

/-- The registers of a process at its call of the context switch. -/
def callRegisters (f : Registers) (previous next : ℕ) : Registers :=
  (f.set .rdi (registerFile previous)).set .rsi (registerFile next)

/-- A process that waits in a call that it made with the registers `k`. -/
structure Suspended (m : Memory) (f k : Registers) : Prop where
  rip : f.rip = Processor.address resumePosition
  rsp : f.rsp = k.rsp - 8
  word : m.word f.rsp.toNat = switchReturn
  get : ∀ r, r ≠ .rsp → r ≠ .rip → r ≠ .cr3 → f.get r = k.get r

/-- A process without the processor, with the registers `f` in its file. It waits in a call, or it
has not run yet. -/
structure Parked (m : Memory) (stack : Span) (f : Registers) (call : Option Registers) : Prop where
  room : stack.base + 16 ≤ f.rsp.toNat
  le : f.rsp.toNat + 8 ≤ stack.base + stack.size
  fresh : call = none → Outside f.rip
  suspended : ∀ k, call = some k → Suspended m f k

variable {m m' : Machine} {sw : Switch} {i j : ℕ} {stack next : Span} {call : Option Registers}

theorem Parked.congr {k k' : Memory} {f : Registers} (h : Parked k stack f call)
    (hword : k'.word f.rsp.toNat = k.word f.rsp.toNat) : Parked k' stack f call := by
  refine ⟨h.room, h.le, h.fresh, fun c hc => ?_⟩
  have hc' := h.suspended c hc
  exact ⟨hc'.rip, hc'.rsp, hword.trans hc'.word, hc'.get⟩

/-- A process with the processor has room on its stack for what a switch pushes. -/
structure Room (stack : Span) (f : Registers) : Prop where
  room : stack.base + 24 ≤ f.rsp.toNat
  le : f.rsp.toNat ≤ stack.base + stack.size

/-! ## Where a switch starts -/

theorem memory_switchStart (hprevious : sw.previous = some i) : (switchStart m sw).memory =
    (registersAt m.scheduler i).store
      ((registersAt m.scheduler sw.next).store m.memory (registerFile sw.next).toNat)
      (registerFile i).toNat := by
  rw [switchStart, hprevious]

/-- Outside the descriptors nothing was written yet. -/
theorem agreeOutside_switchStart (hprevious : sw.previous = some i) (hi : i < 1024)
    (hnext : sw.next < 1024) :
    Memory.AgreeOutside (Set.Ico descriptors.base (descriptors.base + descriptors.size)) m.memory
      (switchStart m sw).memory := by
  have hsize : descriptors.size = 1024 * 256 := rfl
  have hfile : ∀ {j}, j < 1024 → Set.Ico (registerFile j).toNat ((registerFile j).toNat + 152) ⊆
      Set.Ico descriptors.base (descriptors.base + descriptors.size) := by
    intro j hj c hc
    rw [toNat_registerFile hj, Set.mem_Ico] at hc
    rw [Set.mem_Ico]
    omega
  rw [memory_switchStart hprevious]
  exact ((Registers.agreeOutside_store _ m.memory _).mono (hfile hnext)).trans
    ((Registers.agreeOutside_store _ _ _).mono (hfile hi))

/-- The file of the process that is left. -/
theorem word_switchStart_previous (hprevious : sw.previous = some i) (r : Register) :
    (switchStart m sw).memory.word ((registerFile i).toNat + r.offset) =
      (registersAt m.scheduler i).get r := by
  rw [memory_switchStart hprevious, Registers.word_store]

/-- The file of the next process. -/
theorem word_switchStart_next (hprevious : sw.previous = some i) (hi : i < 1024)
    (hnext : sw.next < 1024) (hne : sw.next ≠ i) (r : Register) :
    (switchStart m sw).memory.word ((registerFile sw.next).toNat + r.offset) =
      (registersAt m.scheduler sw.next).get r := by
  have hr := r.offset_lt
  have hi' := toNat_registerFile hi
  have hnext' := toNat_registerFile hnext
  rw [memory_switchStart hprevious, (Registers.agreeOutside_store _ _ _).word,
    Registers.word_store]
  intro c h₁ h₂ hc
  rw [Set.mem_Ico] at hc
  omega

theorem has_switchStart (h : m.Backs stack) : (switchStart m sw).Has stack.base stack.size := by
  cases h.there with
  | inl hram => exact ⟨m.ram, by simp [switchStart], hram⟩
  | inr hboot => exact ⟨bootStack, by simp [switchStart], hboot⟩

theorem has_switchStart_registerFile (hi : i < 1024) :
    (switchStart m sw).Has (registerFile i).toNat 152 := by
  have hsize : descriptors.size = 1024 * 256 := rfl
  refine ⟨descriptors, by simp [switchStart], ?_⟩
  rw [toNat_registerFile hi, Span.covers_iff]
  omega

theorem registerFile_apart (hi : i < 1024) (hstack : m.Backs stack) :
    stack.base + stack.size ≤ (registerFile i).toNat ∨
      (registerFile i).toNat + 152 ≤ stack.base := by
  have hapart := hstack.apart
  have hsize : descriptors.size = 1024 * 256 := rfl
  rw [Span.Apart] at hapart
  rw [toNat_registerFile hi]
  omega

theorem ready_switchStart (hprevious : sw.previous = some i) (hi : i < 1024)
    (hnext : sw.next < 1024) (hne : sw.next ≠ i) (hstack : m.Backs stack)
    (hnextStack : m.Backs next) (hapart : stack.Apart next) (hroom : Room stack m.processor)
    (hparked : Parked m.memory next (registersAt m.scheduler sw.next) call) :
    Ready (switchStart m sw) (registerFile i).toNat (registerFile sw.next).toNat
      (registersAt m.scheduler sw.next).get := by
  have hrsp : ((switchStart m sw).get .rsp).toNat = m.processor.rsp.toNat := rfl
  have hnextRsp : ((registersAt m.scheduler sw.next).get .rsp).toNat =
      (registersAt m.scheduler sw.next).rsp.toNat := rfl
  have hbase : descriptors.base = 0xffffffff90000000 := rfl
  have hfile := toNat_registerFile hi
  have hnextFile := toNat_registerFile hnext
  have h₁ := hroom.room
  have h₂ := hroom.le
  have h₃ := hparked.room
  have h₄ := hparked.le
  have h₅ := registerFile_apart hi hstack
  have h₆ := registerFile_apart hnext hstack
  have h₇ := registerFile_apart hi hnextStack
  have h₈ := registerFile_apart hnext hnextStack
  rw [Span.Apart] at hapart
  constructor
  case previous => exact has_switchStart_registerFile hi
  case next => exact has_switchStart_registerFile hnext
  case holds => exact word_switchStart_next hprevious hi hnext hne
  case stack =>
    rw [hrsp]
    exact (has_switchStart hstack).mono (by omega) (by omega)
  case next_stack =>
    rw [hnextRsp]
    exact (has_switchStart hnextStack).mono (by omega) (by omega)
  all_goals omega

/-! ## Where a switch ends -/

theorem outside_switchReturn : Outside switchReturn := rfl

/-- A process that waits for its first switch starts with the registers in its file. -/
theorem Parked.landing_fresh {k : Memory} {f : Registers} (h : Parked k stack f none) :
    landing k f.get = f.get := by
  apply if_neg
  intro hrip
  have houtside := h.fresh rfl
  have hget : f.rip = Processor.address resumePosition := hrip
  rw [hget] at houtside
  exact absurd houtside (by unfold Outside; decide)

/-- A process that was switched out goes on with the registers of its call. -/
theorem Suspended.landing_eq {m : Memory} {f k : Registers} (h : Suspended m f k) {r : Register}
    (hcr3 : r ≠ .cr3) :
    landing m f.get r = if r = .rip then switchReturn else k.get r := by
  have hrip : f.get .rip = Processor.address resumePosition := h.rip
  rw [landing, if_pos hrip]
  by_cases hr : r = .rip
  · rw [hr, Function.update_self, if_pos rfl]
    exact h.word
  rw [Function.update_of_ne hr, if_neg hr]
  by_cases hrsp : r = .rsp
  · rw [hrsp, Function.update_self]
    have hback : f.rsp + 8 = k.rsp := by rw [h.rsp, UInt64.sub_add_cancel]
    exact hback
  · rw [Function.update_of_ne hrsp]
    exact h.get r hrsp hr hcr3

theorem Parked.outside_landing {k : Memory} {f : Registers} (h : Parked k stack f call) :
    Outside (landing k f.get .rip) := by
  cases call with
  | none =>
    rw [h.landing_fresh]
    exact h.fresh rfl
  | some c =>
    rw [(h.suspended c rfl).landing_eq (by decide), if_pos rfl]
    exact outside_switchReturn

/-- What a switch that the scheduler decided on does to the machine. -/
structure CarriedOut (m : Machine) (sw : Switch) (i : ℕ) (place : Landing) (m' : Machine) :
    Prop where
  ram : m'.ram = m.ram
  scheduler : ∃ f : Registers, m'.scheduler =
      m.scheduler.modify i (fun q => { q with thread := { q.thread with registers := f } }) ∧
    f.get = savedRegisters (callRegisters m.processor i sw.next).get
      (registersAt m.scheduler i).cr3
  memory : Memory.AgreeOutside
    (writes (registerFile i).toNat (m.processor.rsp.toNat - 8)
      (registersAt m.scheduler sw.next).rsp.toNat)
    ((switchStart m sw).memory.setWord (m.processor.rsp.toNat - 8) switchReturn) m'.memory
  processor : ∀ r, r ≠ .cr3 →
    m'.processor.get r = landing m.memory (registersAt m.scheduler sw.next).get r
  cr3 : m'.processor.cr3 = spaceAfter (registersAt m.scheduler sw.next).cr3 m.processor.cr3
  place : place =
    if m'.processor.rip = switchReturn then .resumed else .entered m'.processor.rip

/-- A switch to a parked process succeeds. -/
theorem carryOut_spec (hprevious : sw.previous = some i) (hi : i < 1024)
    (hnext : sw.next < 1024) (hne : sw.next ≠ i) (hstack : m.Backs stack)
    (hnextStack : m.Backs next) (hapart : stack.Apart next) (hroom : Room stack m.processor)
    (hparked : Parked m.memory next (registersAt m.scheduler sw.next) call) :
    ∃ place m', carryOut sw m = .ok place m' ∧ CarriedOut m sw i place m' := by
  have hready := ready_switchStart hprevious hi hnext hne hstack hnextStack hapart hroom hparked
  -- the word at the saved stack pointer is no descriptor's
  have hword : (switchStart m sw).memory.word (registersAt m.scheduler sw.next).rsp.toNat =
      m.memory.word (registersAt m.scheduler sw.next).rsp.toNat := by
    have h₁ := hparked.room
    have h₂ := hparked.le
    have h₃ := hnextStack.apart
    rw [Span.Apart] at h₃
    apply (agreeOutside_switchStart hprevious hi hnext).word
    intro c h₄ h₅ hc
    rw [Set.mem_Ico] at hc
    omega
  have hlanding : landing (switchStart m sw).memory (registersAt m.scheduler sw.next).get =
      landing m.memory (registersAt m.scheduler sw.next).get := landing_congr hword
  obtain ⟨q, hgive, hswitches⟩ := giveWay_spec hready
    (by rw [hlanding]; exact hparked.outside_landing) switchReturn
  let m₁ : Machine := { m with console := m.console.log ⟨sw.record.level, sw.record.text⟩ }
  have hcarry : carryOut sw m = .ok
      (if q.registers.rip = switchReturn then .resumed else .entered q.registers.rip)
      (switchEnd m₁ sw q) := by
    have hstart : switchStart m₁ sw = switchStart m sw := rfl
    have hrecord : record sw.record m = .ok () m₁ := rfl
    simp only [carryOut, bind, EStateM.bind, hrecord, get_eq, hprevious]
    rw [hstart, hgive]
    rfl
  refine ⟨_, _, hcarry, rfl, ?_, ?_, ?_, hswitches.cr3, rfl⟩
  · refine ⟨Registers.load q.memory (registerFile i).toNat, ?_, ?_⟩
    · rw [switchEnd, hprevious]
    · funext r
      rw [Registers.get_load, hswitches.saved r, word_switchStart_previous hprevious]
      rfl
  · exact hswitches.memory
  · intro r hr
    rw [← hlanding]
    exact hswitches.landing r hr

/-- Words on the stacks of other processes stay as they are. -/
theorem CarriedOut.word_eq {place : Landing} (h : CarriedOut m sw i place m')
    (hprevious : sw.previous = some i) (hi : i < 1024) (hnext : sw.next < 1024)
    (hroom : Room stack m.processor)
    (hparked : Parked m.memory next (registersAt m.scheduler sw.next) call) {other : Span}
    (hother : m.Backs other) (hstack : other.Apart stack) (hnextStack : other.Apart next) {a : ℕ}
    (h₁ : other.base ≤ a) (h₂ : a + 8 ≤ other.base + other.size) :
    m'.memory.word a = m.memory.word a := by
  have h₃ := hroom.room
  have h₄ := hroom.le
  have h₅ := hparked.room
  have h₆ := hparked.le
  have h₇ := registerFile_apart hi hother
  have h₈ := hother.apart
  rw [Span.Apart] at hstack hnextStack h₈
  have hwritten : m'.memory.word a =
      ((switchStart m sw).memory.setWord (m.processor.rsp.toNat - 8) switchReturn).word a := by
    apply h.memory.word
    intro c h₉ h₁₀ hc
    simp only [writes, Set.mem_union, Set.mem_Ico] at hc
    omega
  have hstart : (switchStart m sw).memory.word a = m.memory.word a := by
    apply (agreeOutside_switchStart hprevious hi hnext).word
    intro c h₉ h₁₀ hc
    rw [Set.mem_Ico] at hc
    omega
  rw [hwritten, Memory.word_setWord_of_disjoint _ _ (by omega), hstart]

/-- The process that gave way is parked in its call. -/
theorem CarriedOut.parked {place : Landing} (h : CarriedOut m sw i place m') (hi : i < 1024)
    (hstack : m.Backs stack) (hapart : stack.Apart next) (hroom : Room stack m.processor)
    (hparked : Parked m.memory next (registersAt m.scheduler sw.next) call) {f : Registers}
    (hf : f.get = savedRegisters (callRegisters m.processor i sw.next).get
      (registersAt m.scheduler i).cr3) :
    Parked m'.memory stack f (some (callRegisters m.processor i sw.next)) := by
  have h₁ := hroom.room
  have h₂ := hroom.le
  have h₃ := hparked.room
  have h₄ := hparked.le
  have h₅ := registerFile_apart hi hstack
  rw [Span.Apart] at hapart
  have hrsp : f.rsp = m.processor.rsp - 8 := congrFun hf .rsp
  have htop : f.rsp.toNat = m.processor.rsp.toNat - 8 := by
    rw [hrsp, Processor.toNat_sub_eight (by omega)]
  refine ⟨by omega, by omega, nofun, fun k hk => ?_⟩
  obtain rfl := Option.some.inj hk
  refine ⟨congrFun hf .rip, hrsp, ?_, ?_⟩
  · rw [htop, h.memory.word, Memory.word_setWord]
    intro c h₆ h₇ hc
    simp only [writes, Set.mem_union, Set.mem_Ico] at hc
    omega
  · intro r hr hrip hcr3
    rw [hf, savedRegisters_eq _ _ hr hrip hcr3]

end Kernel

end KernelCore
