import KernelCore.Cpu.ContextSwitch
import KernelCore.Proofs.Cpu.RegisterFile

/-!
# What a context switch does

The code runs in three parts. It saves the registers in the file of the process that gives way,
looks whether the next process has an address space of its own, and loads the registers of that
process by way of two words pushed on its stack: the general ones come back while the file is in
sight, `rdi` last of them, then the flags, and the return takes the place to go on at. `giveWay_spec`
puts the parts together, from the call up to where the next process goes on, and says which bytes
were written.
-/

namespace KernelCore

seal Memory.setWord

namespace ContextSwitch

open Processor

variable {p q : Processor} {a b n top : ℕ}

/-! ## Saving -/

/-- The registers that are saved as they are. -/
def saved : List Register := Register.all.take 16

def saveGeneral : List Instruction := saved.map fun r => .save r r

def savePosition : List Instruction := [.addressOf .rax resumePosition, .save .rax .rip]

def readFlags : List Instruction := [.push .rflags, .pop .rax]

def saveFlags : List Instruction := [.save .rax .rflags, .move .rdi .rsi]

/-- Memory after the registers `w` are saved in the file at `a`, with the plain return as the place
to go on at, and by way of the word below `top`. -/
def savedMemory (m : Memory) (w : Register → UInt64) (a top : ℕ) : Memory :=
  (((m.setFields a w saved).setWord (a + Register.rip.offset) (address resumePosition)).setWord
    (top - 8) (w .rflags)).setWord (a + Register.rflags.offset) (w .rflags)

section savedMemory

variable {m : Memory} {w : Register → UInt64}

theorem word_savedMemory_of_ne (hapart : top ≤ a ∨ a + 152 ≤ top - 8) (hroom : 8 ≤ top)
    {r : Register} (h : r ≠ .rflags) : (savedMemory m w a top).word (a + r.offset) =
      ((m.setFields a w saved).setWord (a + Register.rip.offset) (address resumePosition)).word
        (a + r.offset) := by
  have hr := Register.offset_apart h
  have hlt := r.offset_lt
  rw [savedMemory, Memory.word_setWord_of_disjoint _ _ (by omega),
    Memory.word_setWord_of_disjoint _ _ (by omega)]

theorem word_savedMemory (hapart : top ≤ a ∨ a + 152 ≤ top - 8) (hroom : 8 ≤ top) {r : Register}
    (hrip : r ≠ .rip) (hcr3 : r ≠ .cr3) : (savedMemory m w a top).word (a + r.offset) = w r := by
  by_cases hflags : r = .rflags
  · rw [hflags, savedMemory, Memory.word_setWord]
  · have hmem : r ∈ saved := by
      cases r <;> first | decide | contradiction
    have hr := Register.offset_apart hrip
    rw [word_savedMemory_of_ne hapart hroom hflags, Memory.word_setWord_of_disjoint _ _ (by omega),
      Memory.word_setFields m a w hmem]

theorem word_savedMemory_rip (hapart : top ≤ a ∨ a + 152 ≤ top - 8) (hroom : 8 ≤ top) :
    (savedMemory m w a top).word (a + Register.rip.offset) = address resumePosition := by
  rw [word_savedMemory_of_ne hapart hroom (by decide), Memory.word_setWord]

theorem agreeOutside_savedMemory (hroom : 8 ≤ top) : Memory.AgreeOutside
    (Set.Ico a (a + 144) ∪ Set.Ico (top - 8) top) m (savedMemory m w a top) := by
  have hfield : ∀ r : Register, r ≠ .cr3 → Set.Ico (a + r.offset) (a + r.offset + 8) ⊆
      Set.Ico a (a + 144) ∪ Set.Ico (top - 8) top := by
    intro r hr c hc
    have hr' := Register.offset_apart hr
    have hlt := r.offset_lt
    have hcr3 : Register.cr3.offset = 144 := rfl
    rw [Set.mem_Ico] at hc
    rw [Set.mem_union, Set.mem_Ico]
    omega
  have hgeneral : Set.Ico a (a + 128) ⊆ Set.Ico a (a + 144) ∪ Set.Ico (top - 8) top := by
    intro c hc
    rw [Set.mem_Ico] at hc
    rw [Set.mem_union, Set.mem_Ico]
    omega
  have hpushed : Set.Ico (top - 8) (top - 8 + 8) ⊆ Set.Ico a (a + 144) ∪ Set.Ico (top - 8) top := by
    rw [Nat.sub_add_cancel hroom]
    exact Set.subset_union_right
  have h₁ : Memory.AgreeOutside (Set.Ico a (a + 128)) m (m.setFields a w saved) :=
    Memory.agreeOutside_setFields m a w (by decide)
  exact (((h₁.mono hgeneral).trans ((Memory.agreeOutside_setWord _ _ _).mono
    (hfield .rip (by decide)))).trans ((Memory.agreeOutside_setWord _ _ _).mono hpushed)).trans
    ((Memory.agreeOutside_setWord _ _ _).mono (hfield .rflags (by decide)))

end savedMemory

theorem block_saving (hfile : p.AtFile a) (htop : (p.get .rsp).toNat = top) (hroom : 8 ≤ top)
    (hstack : p.Has (top - 8) 8) :
    block (saveGeneral ++ savePosition ++ readFlags ++ saveFlags) p =
      some (((p.withMemory (savedMemory p.memory p.get a top)).set .rax (p.get .rflags)).set .rdi
        (p.get .rsi)) := by
  have hbelow : (p.get .rsp - 8).toNat = top - 8 := by
    rw [toNat_sub_eight (by omega), htop]
  let m₁ := p.memory.setFields a p.get saved
  let m₂ := m₁.setWord (a + Register.rip.offset) (address resumePosition)
  let m₃ := m₂.setWord (top - 8) (p.get .rflags)
  let p₁ := p.withMemory m₁
  let p₂ := (p₁.set .rax (address resumePosition)).withMemory m₂
  let p₃ := (p₂.withMemory m₃).set .rax (p.get .rflags)
  have h₁ : block saveGeneral p = some p₁ := hfile.block_save saved
  have h₂ : block savePosition p₁ = some p₂ := by
    have hnext : (p₁.set .rax (address resumePosition)).AtFile a :=
      hfile.of_eq (get_set_of_ne _ _ (by decide)) (spans_set _ _ _)
    rw [savePosition, block_cons, execute, Option.bind_some, block_cons, hnext.execute_save,
      get_set_self]
    rfl
  have h₃ : block readFlags p₂ = some p₃ := by
    have hrsp : p₂.get .rsp = p.get .rsp := rfl
    have hflags : p₂.get .rflags = p.get .rflags := rfl
    have hreaches : p₂.reaches (p₂.get .rsp - 8) = true :=
      Has.reaches (p := p₂) hstack (by rw [hrsp]; omega) (by rw [hrsp]; omega)
    rw [readFlags, block_push_pop hreaches, hrsp, hflags, hbelow]
    rfl
  have h₄ : block saveFlags p₃ = some (((p.withMemory (savedMemory p.memory p.get a top)).set .rax
      (p.get .rflags)).set .rdi (p.get .rsi)) := by
    have hnext : p₃.AtFile a := hfile.of_eq rfl rfl
    rw [saveFlags, block_cons, hnext.execute_save]
    rfl
  rw [block_append, block_append, block_append, h₁, Option.bind_some, h₂, Option.bind_some, h₃,
    Option.bind_some, h₄]

/-- The registers of `p` are in the file at `a`, with the plain return as the place to go on at; one
word below `top` was used on the way. -/
structure Saved (p q : Processor) (a top : ℕ) : Prop where
  word : ∀ r, r ≠ .rip → r ≠ .cr3 → q.memory.word (a + r.offset) = p.get r
  rip : q.memory.word (a + Register.rip.offset) = address resumePosition
  memory : Memory.AgreeOutside (Set.Ico a (a + 144) ∪ Set.Ico (top - 8) top) p.memory q.memory
  spans : q.spans = p.spans
  cr3 : q.get .cr3 = p.get .cr3

theorem runs_saving (hfile : p.AtFile a) (htop : (p.get .rsp).toNat = top) (hroom : 8 ≤ top)
    (hstack : p.Has (top - 8) 8) (hapart : top ≤ a ∨ a + 152 ≤ top - 8) :
    ∃ q, Runs code 23 (p.goto 0) (q.goto enterPosition) ∧ q.get .rdi = p.get .rsi ∧
      Saved p q a top := by
  have hblock := block_saving hfile htop hroom hstack
  generalize hq : ((p.withMemory (savedMemory p.memory p.get a top)).set .rax
    (p.get .rflags)).set .rdi (p.get .rsi) = q at hblock
  have hstraight : Runs code 22 (p.goto 0) (q.goto 22) :=
    runs_block (by decide) (by decide) (by decide) hblock
  have hjump : Runs code 1 (q.goto 22) (q.goto enterPosition) := runs_jump rfl (by decide)
  refine ⟨q, hstraight.trans hjump, ?_, ?_, ?_, ?_, ?_, ?_⟩
  · rw [← hq, get_set_self]
  · intro r hrip hcr3
    rw [← hq]
    exact word_savedMemory hapart hroom hrip hcr3
  · rw [← hq]
    exact word_savedMemory_rip hapart hroom
  · rw [← hq]
    exact agreeOutside_savedMemory hroom
  · rw [← hq]
    rfl
  · rw [← hq]
    rfl

/-! ## Entering the address space -/

/-- Both have the same memory, and point at the same register file in it. -/
structure SameFile (p q : Processor) : Prop where
  rdi : q.get .rdi = p.get .rdi
  memory : q.memory = p.memory
  spans : q.spans = p.spans

theorem SameFile.trans {u : Processor} (h₁ : SameFile p q) (h₂ : SameFile q u) : SameFile p u :=
  ⟨h₂.rdi.trans h₁.rdi, h₂.memory.trans h₁.memory, h₂.spans.trans h₁.spans⟩

theorem sameFile_set (p : Processor) {r : Register} (w : UInt64) (h : r ≠ .rdi) :
    SameFile p (p.set r w) :=
  ⟨get_set_of_ne p w h, rfl, rfl⟩

theorem sameFile_setZeroFlag (p : Processor) (on : Bool) : SameFile p (p.setZeroFlag on) := by
  rw [setZeroFlag]
  exact sameFile_set p _ (by decide)

/-- The address space with which a process goes on that has `root` in its file, if `active` is
loaded. Zero stands for the one that is loaded. -/
def spaceAfter (root active : UInt64) : UInt64 := if root = 0 then active else root

/-- Looks whether the process has an address space of its own. -/
theorem runs_test (hfile : p.AtFile a) :
    ∃ q, Runs code 2 (p.goto enterPosition) (q.goto 26) ∧ SameFile p q ∧
      q.get .cr3 = p.get .cr3 ∧ q.get .rax = p.memory.word (a + Register.cr3.offset) ∧
      q.zeroFlag = (p.memory.word (a + Register.cr3.offset) == 0) := by
  have hrestore := hfile.execute_restore .rax .cr3
  generalize p.memory.word (a + Register.cr3.offset) = w at hrestore
  have hblock : block [.restore .rax .cr3, .test .rax] p =
      some ((p.set .rax w).setZeroFlag (w == 0)) := by
    rw [block_cons, hrestore]
    rfl
  exact ⟨_, runs_block (by decide) (by decide) (by decide) hblock,
    (sameFile_set p w (by decide)).trans (sameFile_setZeroFlag _ _),
    get_setZeroFlag _ _ (by decide), get_setZeroFlag _ _ (by decide), zeroFlag_setZeroFlag _ _⟩

/-- Looks whether that address space is loaded. -/
theorem runs_compare (p : Processor) :
    ∃ q, Runs code 2 (p.goto 27) (q.goto 29) ∧ SameFile p q ∧ q.get .cr3 = p.get .cr3 ∧
      q.get .rax = p.get .rax ∧ q.zeroFlag = (p.get .rax == p.get .cr3) := by
  have hblock : block [.move .rcx .cr3, .compare .rax .rcx] p =
      some ((p.set .rcx (p.get .cr3)).setZeroFlag (p.get .rax == p.get .cr3)) := by
    rw [block_cons, execute, Option.bind_some, block_cons, execute, get_set_self,
      get_set_of_ne _ _ (by decide)]
    rfl
  exact ⟨_, runs_block (by decide) (by decide) (by decide) hblock,
    (sameFile_set p _ (by decide)).trans (sameFile_setZeroFlag _ _),
    get_setZeroFlag _ _ (by decide), get_setZeroFlag _ _ (by decide), zeroFlag_setZeroFlag _ _⟩

theorem runs_loadSpace (p : Processor) :
    ∃ q, Runs code 1 (p.goto 30) (q.goto stackPosition) ∧ SameFile p q ∧
      q.get .cr3 = p.get .rax := by
  have hblock : block [.loadSpace .rax] p =
      some { p.set .cr3 (p.get .rax) with loads := p.get .rax :: p.loads } := rfl
  exact ⟨_, runs_block (by decide) (by decide) (by decide) hblock, ⟨rfl, rfl, rfl⟩, rfl⟩

/-- Up to where the address space is the right one. -/
theorem runs_entering (hfile : p.AtFile a) : ∃ n q, n ≤ 7 ∧
    Runs code n (p.goto enterPosition) (q.goto stackPosition) ∧ SameFile p q ∧
    q.get .cr3 = spaceAfter (p.memory.word (a + Register.cr3.offset)) (p.get .cr3) := by
  obtain ⟨p₁, htest, hsame₁, hcr3₁, hrax₁, hflag₁⟩ := runs_test hfile
  have hnone : code[26]? = some (.jumpIfZeroFlag stackPosition) := rfl
  have hjump₁ := runs_jumpIfZeroFlag (p := p₁) hnone (by decide)
  generalize p.memory.word (a + Register.cr3.offset) = root at hrax₁ hflag₁ ⊢
  rw [hflag₁] at hjump₁
  by_cases hroot : root = 0
  · rw [if_pos (beq_iff_eq.mpr hroot)] at hjump₁
    refine ⟨3, p₁, by decide, htest.trans hjump₁, hsame₁, ?_⟩
    rw [hcr3₁, spaceAfter, if_pos hroot]
  rw [if_neg (by simpa using hroot)] at hjump₁
  obtain ⟨p₂, hcompare, hsame₂, hcr3₂, hrax₂, hflag₂⟩ := runs_compare p₁
  have hloaded : code[29]? = some (.jumpIfZeroFlag stackPosition) := rfl
  have hjump₂ := runs_jumpIfZeroFlag (p := p₂) hloaded (by decide)
  have hown := (htest.trans hjump₁).trans hcompare
  have hspace : spaceAfter root (p.get .cr3) = p₂.get .rax := by
    rw [spaceAfter, if_neg hroot, hrax₂, hrax₁]
  rw [hspace]
  rw [hflag₂] at hjump₂
  by_cases hactive : p₁.get .rax = p₁.get .cr3
  · rw [if_pos (beq_iff_eq.mpr hactive)] at hjump₂
    refine ⟨6, p₂, by decide, hown.trans hjump₂, hsame₁.trans hsame₂, ?_⟩
    rw [hcr3₂, hrax₂, hactive]
  · rw [if_neg (by simpa using hactive)] at hjump₂
    obtain ⟨p₃, hload, hsame₃, hcr3₃⟩ := runs_loadSpace p₂
    exact ⟨7, p₃, by decide, (hown.trans hjump₂).trans hload,
      (hsame₁.trans hsame₂).trans hsame₃, hcr3₃⟩

/-! ## Loading -/

/-- The registers that are restored while the file is in sight. -/
def restored : List Register :=
  [.rax, .rbx, .rcx, .rdx, .rsi, .r8, .r9, .r10, .r11, .r12, .r13, .r14, .r15, .rbp]

def enterStack : List Instruction := [.restore .rsp .rsp, .pushField .rip, .pushField .rflags]

def restoreGeneral : List Instruction := restored.map fun r => .restore r r

def restoreLast : List Instruction := [.restore .rdi .rdi, .pop .rflags]

/-- Memory after the place to go on at and the flags are put below `top`. -/
def loadedMemory (m : Memory) (w : Register → UInt64) (top : ℕ) : Memory :=
  (m.setWord (top - 8) (w .rip)).setWord (top - 16) (w .rflags)

theorem word_loadedMemory {m : Memory} {w : Register → UInt64} (hroom : 16 ≤ top)
    {c : ℕ} (hc : c + 8 ≤ top - 16 ∨ top ≤ c) : (loadedMemory m w top).word c = m.word c := by
  rw [loadedMemory, Memory.word_setWord_of_disjoint _ _ (by omega),
    Memory.word_setWord_of_disjoint _ _ (by omega)]

theorem word_loadedMemory_rip {m : Memory} {w : Register → UInt64} (hroom : 16 ≤ top) :
    (loadedMemory m w top).word (top - 8) = w .rip := by
  rw [loadedMemory, Memory.word_setWord_of_disjoint _ _ (by omega), Memory.word_setWord]

theorem word_loadedMemory_rflags {m : Memory} {w : Register → UInt64} :
    (loadedMemory m w top).word (top - 16) = w .rflags := by
  rw [loadedMemory, Memory.word_setWord]

theorem agreeOutside_loadedMemory (m : Memory) (w : Register → UInt64) (hroom : 16 ≤ top) :
    Memory.AgreeOutside (Set.Ico (top - 16) top) m (loadedMemory m w top) := by
  have hrip : Memory.AgreeOutside (Set.Ico (top - 16) top) m (m.setWord (top - 8) (w .rip)) := by
    apply (Memory.agreeOutside_setWord m (top - 8) (w .rip)).mono
    intro c hc
    rw [Set.mem_Ico] at hc ⊢
    omega
  apply hrip.trans
  apply (Memory.agreeOutside_setWord _ (top - 16) (w .rflags)).mono
  intro c hc
  rw [Set.mem_Ico] at hc ⊢
  omega

variable {w : Register → UInt64}

/-- There is room for two words below the stack pointer in a register file, outside the file. -/
structure StackRoom (p : Processor) (a : ℕ) (w : Register → UInt64) : Prop where
  room : 16 ≤ (w .rsp).toNat
  has : p.Has ((w .rsp).toNat - 16) 16
  apart : (w .rsp).toNat ≤ a ∨ a + 152 ≤ (w .rsp).toNat - 16

/-- The registers `w` are in the file at `a`. -/
def Holds (p : Processor) (a : ℕ) (w : Register → UInt64) : Prop :=
  ∀ r : Register, p.memory.word (a + r.offset) = w r

theorem word_file_loadedMemory (hholds : Holds p a w) (hstack : StackRoom p a w) (r : Register) :
    (loadedMemory p.memory w (w .rsp).toNat).word (a + r.offset) = w r := by
  have hlt := r.offset_lt
  have hroom := hstack.room
  have hapart := hstack.apart
  rw [word_loadedMemory hroom (by omega), hholds r]

theorem block_enterStack (hfile : p.AtFile a) (hholds : Holds p a w) (hstack : StackRoom p a w) :
    block enterStack p =
      some ((p.withMemory (loadedMemory p.memory w (w .rsp).toNat)).set .rsp (w .rsp - 8 - 8)) := by
  have hroom := hstack.room
  have hapart := hstack.apart
  have h₈ : (w .rsp - 8).toNat = (w .rsp).toNat - 8 := toNat_sub_eight (by omega)
  have h₁₆ := toNat_sub_sixteen hroom
  let p₁ := p.set .rsp (w .rsp)
  let m₂ := p.memory.setWord ((w .rsp).toNat - 8) (w .rip)
  let p₂ := (p₁.withMemory m₂).set .rsp (w .rsp - 8)
  have hfile₁ : p₁.AtFile a := hfile.of_eq rfl rfl
  have hfile₂ : p₂.AtFile a := hfile.of_eq rfl rfl
  have h₁ : p.execute (.restore .rsp .rsp) = some p₁ := by
    rw [hfile.execute_restore, hholds]
  have h₂ : p₁.execute (.pushField .rip) = some p₂ := by
    have hreaches : p₁.reaches (p₁.get .rsp - 8) = true :=
      Has.reaches (p := p₁) hstack.has (by rw [get_set_self]; omega) (by rw [get_set_self]; omega)
    rw [hfile₁.execute_pushField, pushWord_eq hreaches, get_set_self, h₈, memory_set, hholds]
  have h₃ : p₂.execute (.pushField .rflags) = some
      ((p.withMemory (loadedMemory p.memory w (w .rsp).toNat)).set .rsp (w .rsp - 8 - 8)) := by
    have hreaches : p₂.reaches (p₂.get .rsp - 8) = true :=
      Has.reaches (p := p₂) hstack.has (by rw [get_set_self]; omega) (by rw [get_set_self]; omega)
    have hflags : m₂.word (a + Register.rflags.offset) = w .rflags := by
      have hlt := Register.rflags.offset_lt
      rw [Memory.word_setWord_of_disjoint _ _ (by omega), hholds]
    have hmemory : p₂.memory = m₂ := rfl
    rw [hfile₂.execute_pushField, pushWord_eq hreaches, get_set_self, h₁₆, hmemory, hflags]
    rfl
  rw [enterStack, block_cons, h₁, Option.bind_some, block_cons, h₂, Option.bind_some, block_cons,
    h₃]
  rfl

theorem block_restoreGeneral (hfile : p.AtFile a) (hholds : Holds p a w) :
    block restoreGeneral p = some (p.setAll w restored) := by
  have hw : (fun r : Register => p.memory.word (a + r.offset)) = w := by
    funext r
    rw [hholds r]
  rw [restoreGeneral, hfile.block_restore (by decide), hw]

theorem block_restoreLast (hfile : p.AtFile a) (hholds : Holds p a w)
    (hrsp : p.reaches (p.get .rsp) = true) (hflags : p.memory.word (p.get .rsp).toNat = w .rflags) :
    block restoreLast p =
      some (((p.set .rdi (w .rdi)).set .rsp (p.get .rsp + 8)).set .rflags (w .rflags)) := by
  let p₁ := p.set .rdi (w .rdi)
  have hget : p₁.get .rsp = p.get .rsp := rfl
  have hpop : p₁.popWord = some (w .rflags, p₁.set .rsp (p.get .rsp + 8)) := by
    rw [popWord_eq (by rw [hget]; exact hrsp), hget, memory_set, hflags]
  rw [restoreLast, block_cons, hfile.execute_restore, hholds, Option.bind_some, block_cons, execute,
    hpop]
  rfl

/-- The processor before the last return, if the file in sight holds `w`. -/
def loaded (p : Processor) (w : Register → UInt64) : Processor :=
  (((((p.withMemory (loadedMemory p.memory w (w .rsp).toNat)).set .rsp (w .rsp - 8 - 8)).setAll w
    restored).set .rdi (w .rdi)).set .rsp (w .rsp - 8)).set .rflags (w .rflags)

theorem get_loaded_rsp (p : Processor) (w : Register → UInt64) :
    (loaded p w).get .rsp = w .rsp - 8 := by
  rw [loaded, get_set_of_ne _ _ (by decide), get_set_self]

theorem memory_loaded (p : Processor) (w : Register → UInt64) :
    (loaded p w).memory = loadedMemory p.memory w (w .rsp).toNat := by
  rw [loaded, memory_set, memory_set, memory_set, memory_setAll]
  rfl

theorem spans_loaded (p : Processor) (w : Register → UInt64) : (loaded p w).spans = p.spans := by
  rw [loaded, spans_set, spans_set, spans_set, spans_setAll]
  rfl

theorem StackRoom.reaches (hstack : StackRoom p a w) (hspans : q.spans = p.spans) {v : UInt64}
    (h₁ : (w .rsp).toNat - 16 ≤ v.toNat) (h₂ : v.toNat + 8 ≤ (w .rsp).toNat) :
    q.reaches v = true := by
  have hroom := hstack.room
  have hhas : q.Has ((w .rsp).toNat - 16) 16 := by
    rw [Has, hspans]
    exact hstack.has
  exact hhas.reaches h₁ (by omega)

theorem block_loading (hfile : p.AtFile a) (hholds : Holds p a w) (hstack : StackRoom p a w) :
    block (enterStack ++ restoreGeneral ++ restoreLast) p = some (loaded p w) := by
  have hroom := hstack.room
  have h₁₆ := toNat_sub_sixteen hroom
  let m := loadedMemory p.memory w (w .rsp).toNat
  let p₁ := (p.withMemory m).set .rsp (w .rsp - 8 - 8)
  let p₂ := p₁.setAll w restored
  have hmem₂ : p₂.memory = m := memory_setAll p₁ w restored
  have hspans₂ : p₂.spans = p.spans := spans_setAll p₁ w restored
  have hrsp₂ : p₂.get .rsp = w .rsp - 8 - 8 :=
    (get_setAll p₁ w restored .rsp).trans (if_neg (by decide))
  have hholds₁ : Holds p₁ a w := word_file_loadedMemory hholds hstack
  have hholds₂ : Holds p₂ a w := by
    intro r
    rw [hmem₂]
    exact word_file_loadedMemory hholds hstack r
  have hfile₁ : p₁.AtFile a := hfile.of_eq rfl rfl
  have hfile₂ : p₂.AtFile a :=
    hfile₁.of_eq ((get_setAll p₁ w restored .rdi).trans (if_neg (by decide))) hspans₂
  have hreaches : p₂.reaches (p₂.get .rsp) = true :=
    hstack.reaches hspans₂ (by rw [hrsp₂]; omega) (by rw [hrsp₂]; omega)
  have hflags : p₂.memory.word (p₂.get .rsp).toNat = w .rflags := by
    rw [hmem₂, hrsp₂, h₁₆]
    exact word_loadedMemory_rflags
  have hlast : block restoreLast p₂ = some (loaded p w) := by
    rw [block_restoreLast hfile₂ hholds₂ hreaches hflags, hrsp₂, UInt64.sub_add_cancel]
    rfl
  rw [block_append, block_append, block_enterStack hfile hholds hstack, Option.bind_some,
    block_restoreGeneral hfile₁ hholds₁, Option.bind_some, hlast]

/-- Onto the stack of the process whose registers are `w`, and to its place to go on at. -/
theorem runs_loading (hfile : p.AtFile a) (hholds : Holds p a w) (hstack : StackRoom p a w) :
    ∃ q, Runs code 20 (p.goto stackPosition) q ∧ (∀ r, r ≠ .cr3 → q.get r = w r) ∧
      q.get .cr3 = p.get .cr3 ∧ q.memory = loadedMemory p.memory w (w .rsp).toNat ∧
      q.spans = p.spans := by
  have hroom := hstack.room
  have h₈ : (w .rsp - 8).toNat = (w .rsp).toNat - 8 := toNat_sub_eight (by omega)
  have hstraight : Runs code 19 (p.goto stackPosition) ((loaded p w).goto 50) :=
    runs_block (by decide) (by decide) (by decide) (block_loading hfile hholds hstack)
  have hreaches : (loaded p w).reaches ((loaded p w).get .rsp) = true :=
    hstack.reaches (spans_loaded p w) (by rw [get_loaded_rsp]; omega)
      (by rw [get_loaded_rsp]; omega)
  have hfetch : code[50]? = some .ret := rfl
  have hret := runs_ret (p := loaded p w) hfetch (by decide) hreaches
  rw [memory_loaded, get_loaded_rsp, h₈, word_loadedMemory_rip hroom, UInt64.sub_add_cancel] at hret
  refine ⟨_, hstraight.trans hret, ?_, ?_, ?_, ?_⟩
  · intro r hcr3
    rw [get_set, get_set, loaded, get_set, get_set, get_set, get_setAll]
    cases r <;> first | rfl | contradiction
  · rw [get_set, get_set, loaded, get_set, get_set, get_set, get_setAll]
    rfl
  · rw [memory_set, memory_set, memory_loaded]
  · rw [spans_set, spans_set, spans_loaded]

/-! ## The whole switch -/

/-- Whether no instruction of the switch has the address. -/
def Outside (address : UInt64) : Prop := code[(address - codeBase).toNat]? = none

theorem run_of_outside (h : Outside (p.get .rip)) (m : ℕ) : run code m p = some p :=
  run_of_fetch?_eq_none h m

/-- The registers with which the next process goes on, if its file holds `w`. A process that was
switched out goes on after its call, as it returns from there. -/
def landing (m : Memory) (w : Register → UInt64) : Register → UInt64 :=
  if w .rip = address resumePosition then
    Function.update (Function.update w .rsp (w .rsp + 8)) .rip (m.word (w .rsp).toNat)
  else w

/-- What a switch from the file at `a` to the file at `b` reads and writes is there, and apart from
each other: the files, two words of the stack that is left, and three words of the next one. -/
structure Ready (p : Processor) (a b : ℕ) (w : Register → UInt64) : Prop where
  previous_lt : a + 152 ≤ 2 ^ 64
  previous : p.Has a 152
  next_lt : b + 152 ≤ 2 ^ 64
  next : p.Has b 152
  holds : Holds p b w
  room : 16 ≤ (p.get .rsp).toNat
  stack : p.Has ((p.get .rsp).toNat - 16) 16
  next_room : 16 ≤ (w .rsp).toNat
  next_stack : p.Has ((w .rsp).toNat - 16) 24
  files : a + 152 ≤ b ∨ b + 152 ≤ a
  stack_previous : (p.get .rsp).toNat ≤ a ∨ a + 152 ≤ (p.get .rsp).toNat - 16
  stack_next : (p.get .rsp).toNat ≤ b ∨ b + 152 ≤ (p.get .rsp).toNat - 16
  next_stack_previous : (w .rsp).toNat + 8 ≤ a ∨ a + 152 ≤ (w .rsp).toNat - 16
  next_stack_next : (w .rsp).toNat + 8 ≤ b ∨ b + 152 ≤ (w .rsp).toNat - 16
  stack_next_stack : (p.get .rsp).toNat ≤ (w .rsp).toNat - 16 ∨
    (w .rsp).toNat + 8 ≤ (p.get .rsp).toNat - 16

/-- The bytes that a switch writes: the file that is left, except for the address space, the word
below the stack pointer `top` at its entry, and two words of the next stack. -/
def writes (a top nextTop : ℕ) : Set ℕ :=
  Set.Ico a (a + 144) ∪ Set.Ico (top - 8) top ∪ Set.Ico (nextTop - 16) nextTop

/-- The registers that are saved at a call with the registers `w`. -/
def savedRegisters (w : Register → UInt64) (cr3 : UInt64) : Register → UInt64 :=
  Function.update (Function.update (Function.update w .rsp (w .rsp - 8)) .rip
    (address resumePosition)) .cr3 cr3

/-- What a switch does. -/
structure Switches (p q : Processor) (previous next returnAddress : UInt64)
    (w : Register → UInt64) : Prop where
  saved : ∀ r : Register, q.memory.word (previous.toNat + r.offset) =
    savedRegisters ((p.set .rdi previous).set .rsi next).get
      (p.memory.word (previous.toNat + Register.cr3.offset)) r
  memory : Memory.AgreeOutside (writes previous.toNat ((p.get .rsp).toNat - 8) (w .rsp).toNat)
    (p.memory.setWord ((p.get .rsp).toNat - 8) returnAddress) q.memory
  landing : ∀ r, r ≠ .cr3 → q.get r = ContextSwitch.landing p.memory w r
  cr3 : q.get .cr3 = spaceAfter (w .cr3) (p.get .cr3)

/-- A process that was switched out returns from its call; a new one is where it starts. -/
theorem exists_landing (hq : ∀ r, r ≠ .cr3 → q.get r = w r) (hreaches : q.reaches (w .rsp) = true)
    (houtside : Outside (landing q.memory w .rip)) :
    ∃ u, (∀ m, run code (1 + m) q = some u) ∧ u.memory = q.memory ∧
      (∀ r, r ≠ .cr3 → u.get r = landing q.memory w r) ∧ u.get .cr3 = q.get .cr3 := by
  have hrip : q.get .rip = w .rip := hq .rip (by decide)
  have hrsp : q.get .rsp = w .rsp := hq .rsp (by decide)
  by_cases hresume : w .rip = address resumePosition
  · have hgoto : q.goto resumePosition = q := by
      rw [goto, ← hresume, ← hrip, set_get]
    have hret := runs_ret (p := q) fetch_resume (by decide) (by rw [hrsp]; exact hreaches)
    rw [hgoto, hrsp] at hret
    generalize hu : (q.set .rsp (w .rsp + 8)).set .rip (q.memory.word (w .rsp).toNat) = u at hret
    have hlanding : ∀ r, r ≠ .cr3 → u.get r = landing q.memory w r := by
      intro r hr
      rw [← hu, landing, if_pos hresume, get_set, get_set, Function.update_apply,
        Function.update_apply, hq r hr]
      simp only [eq_comm]
    refine ⟨u, fun m => ?_, ?_, hlanding, ?_⟩
    · rw [hret m]
      apply run_of_outside
      rw [hlanding .rip (by decide)]
      exact houtside
    · rw [← hu, memory_set, memory_set]
    · rw [← hu, get_set_of_ne _ _ (by decide), get_set_of_ne _ _ (by decide)]
  · have hsame : landing q.memory w = w := if_neg hresume
    rw [hsame] at houtside ⊢
    refine ⟨q, fun m => ?_, rfl, hq, rfl⟩
    apply run_of_outside
    rw [hrip]
    exact houtside

/-- From the entry of the switch to the place where the next process goes on. -/
theorem runs_switch (ha : p.AtFile a) (htop : (p.get .rsp).toNat = top) (hroom : 8 ≤ top)
    (hstack : p.Has (top - 8) 8) (hapart : top ≤ a ∨ a + 152 ≤ top - 8)
    (hrsi : (p.get .rsi).toNat = b) (hlt : b + 152 ≤ 2 ^ 64) (hhas : p.Has b 152)
    (hholds : Holds p b w) (hfiles : a + 152 ≤ b ∨ b + 152 ≤ a)
    (hbelow : top ≤ b ∨ b + 152 ≤ top - 8) (hnext : StackRoom p b w) :
    ∃ n u q, n ≤ 50 ∧ Runs code n (p.goto 0) q ∧ Saved p u a top ∧
      (∀ r, r ≠ .cr3 → q.get r = w r) ∧ q.get .cr3 = spaceAfter (w .cr3) (p.get .cr3) ∧
      q.memory = loadedMemory u.memory w (w .rsp).toNat ∧ q.spans = p.spans := by
  obtain ⟨u, hsaving, hrdi, hsaved⟩ := runs_saving ha htop hroom hstack hapart
  have hfile : u.AtFile b := by
    refine ⟨by rw [hrdi, hrsi], hlt, ?_⟩
    rw [Has, hsaved.spans]
    exact hhas
  have hheld : Holds u b w := by
    intro r
    have hr := r.offset_lt
    rw [hsaved.memory.word, hholds r]
    intro c h₁ h₂ hc
    rw [Set.mem_union, Set.mem_Ico, Set.mem_Ico] at hc
    omega
  obtain ⟨n, v, hn, hentering, hsame, hspace⟩ := runs_entering hfile
  have hfile' : v.AtFile b := hfile.of_eq hsame.rdi hsame.spans
  have hholds' : Holds v b w := by
    intro r
    rw [hsame.memory, hheld r]
  have hstack' : StackRoom v b w := by
    refine ⟨hnext.room, ?_, hnext.apart⟩
    rw [Has, hsame.spans, hsaved.spans]
    exact hnext.has
  obtain ⟨q, hloading, hregisters, hcr3, hmemory, hspans⟩ :=
    runs_loading hfile' hholds' hstack'
  refine ⟨23 + n + 20, u, q, by omega, (hsaving.trans hentering).trans hloading, hsaved,
    hregisters, ?_, ?_, ?_⟩
  · rw [hcr3, hspace, hheld, hsaved.cr3]
  · rw [hmemory, hsame.memory]
  · rw [hspans, hsame.spans, hsaved.spans]

theorem landing_congr {m k : Memory} (h : m.word (w .rsp).toNat = k.word (w .rsp).toNat) :
    landing m w = landing k w := by
  rw [landing, landing, h]

theorem savedRegisters_eq (w : Register → UInt64) (cr3 : UInt64) {r : Register} (hrsp : r ≠ .rsp)
    (hrip : r ≠ .rip) (hcr3 : r ≠ .cr3) : savedRegisters w cr3 r = w r := by
  rw [savedRegisters, Function.update_of_ne hcr3, Function.update_of_ne hrip,
    Function.update_of_ne hrsp]

/-- The processor at the entry of the switch, after the call. -/
def called (p : Processor) (previous next returnAddress : UInt64) : Processor :=
  (((p.set .rdi previous).set .rsi next).withMemory
    (p.memory.setWord ((p.get .rsp).toNat - 8) returnAddress)).set .rsp (p.get .rsp - 8)

section called

variable {previous next returnAddress : UInt64}

theorem word_called (p : Processor) (previous next returnAddress : UInt64) {c : ℕ}
    (hroom : 8 ≤ (p.get .rsp).toNat)
    (hc : c + 8 ≤ (p.get .rsp).toNat - 8 ∨ (p.get .rsp).toNat ≤ c) :
    (called p previous next returnAddress).memory.word c = p.memory.word c :=
  Memory.word_setWord_of_disjoint p.memory returnAddress (by omega)

theorem giveWay_eq (hroom : 16 ≤ (p.get .rsp).toNat)
    (hstack : p.Has ((p.get .rsp).toNat - 16) 16) :
    giveWay p previous next returnAddress =
      run code steps ((called p previous next returnAddress).goto 0) := by
  have htop : (p.get .rsp - 8).toNat = (p.get .rsp).toNat - 8 := toNat_sub_eight (by omega)
  let p₀ := (p.set .rdi previous).set .rsi next
  have hrsp : p₀.get .rsp = p.get .rsp := rfl
  have hreaches : p₀.reaches (p₀.get .rsp - 8) = true := by
    rw [hrsp]
    exact Has.reaches (p := p₀) hstack (by omega) (by omega)
  have hpush : p₀.pushWord returnAddress = some (called p previous next returnAddress) := by
    rw [pushWord_eq hreaches, hrsp, htop]
    rfl
  rw [giveWay, call, hpush]
  rfl

/-- The registers that are saved are those of the call, but for the stack pointer and the place to
go on at. -/
theorem Saved.eq_savedRegisters (hroom : 16 ≤ (p.get .rsp).toNat)
    (hapart : (p.get .rsp).toNat ≤ a ∨ a + 152 ≤ (p.get .rsp).toNat - 16)
    (hsaved : Saved (called p previous next returnAddress) q a ((p.get .rsp).toNat - 8))
    (r : Register) : q.memory.word (a + r.offset) =
      savedRegisters ((p.set .rdi previous).set .rsi next).get
        (p.memory.word (a + Register.cr3.offset)) r := by
  by_cases hcr3 : r = .cr3
  · have hoffset : Register.cr3.offset = 144 := rfl
    have houtside : ∀ c, a + Register.cr3.offset ≤ c → c < a + Register.cr3.offset + 8 →
        c ∉ Set.Ico a (a + 144) ∪
          Set.Ico ((p.get .rsp).toNat - 8 - 8) ((p.get .rsp).toNat - 8) := by
      intro c h₁ h₂ hc
      rw [Set.mem_union, Set.mem_Ico, Set.mem_Ico] at hc
      omega
    rw [hcr3, savedRegisters, Function.update_self, hsaved.memory.word houtside,
      word_called p _ _ _ (by omega) (by omega)]
  by_cases hrip : r = .rip
  · rw [hrip, hsaved.rip]
    rfl
  rw [hsaved.word r hrip hcr3]
  by_cases hrsp : r = .rsp
  · rw [hrsp]
    rfl
  · rw [savedRegisters_eq _ _ hrsp hrip hcr3]
    exact get_set_of_ne _ _ (Ne.symm hrsp)

theorem toNat_rsp_called (hroom : 16 ≤ (p.get .rsp).toNat) :
    ((called p previous next returnAddress).get .rsp).toNat = (p.get .rsp).toNat - 8 := by
  rw [called, get_set_self, toNat_sub_eight (by omega)]

theorem Ready.holds_called (h : Ready p previous.toNat next.toNat w) (returnAddress : UInt64) :
    Holds (called p previous next returnAddress) next.toNat w := by
  intro r
  have hr := r.offset_lt
  have hroom := h.room
  have hstack := h.stack_next
  rw [word_called p _ _ _ (by omega) (by omega), h.holds r]

/-- From the call to the place where the registers `w` are on. -/
theorem Ready.runs_called (h : Ready p previous.toNat next.toNat w) (returnAddress : UInt64) :
    ∃ n u q, n ≤ 50 ∧ Runs code n ((called p previous next returnAddress).goto 0) q ∧
      Saved (called p previous next returnAddress) u previous.toNat ((p.get .rsp).toNat - 8) ∧
      (∀ r, r ≠ .cr3 → q.get r = w r) ∧ q.get .cr3 = spaceAfter (w .cr3) (p.get .cr3) ∧
      q.memory = loadedMemory u.memory w (w .rsp).toNat ∧ q.spans = p.spans := by
  have hholds := h.holds_called returnAddress
  have htop : ((called p previous next returnAddress).get .rsp).toNat = (p.get .rsp).toNat - 8 :=
    toNat_rsp_called h.room
  obtain ⟨hprevious_lt, hprevious, hnext_lt, hnext, -, hroom, hstack, hnext_room, hnext_stack,
    hfiles, hstack_previous, hstack_next, hnext_stack_previous, hnext_stack_next, hapart⟩ := h
  have hspans : (called p previous next returnAddress).spans = p.spans := rfl
  have hhas : ∀ {c k}, p.Has c k → (called p previous next returnAddress).Has c k := by
    intro c k hc
    rwa [Has, hspans]
  have hfile : (called p previous next returnAddress).AtFile previous.toNat :=
    ⟨rfl, hprevious_lt, hhas hprevious⟩
  have hnext₁ : StackRoom (called p previous next returnAddress) next.toNat w :=
    ⟨hnext_room, hhas (hnext_stack.mono (by omega) (by omega)), by omega⟩
  have hrsi : ((called p previous next returnAddress).get .rsi).toNat = next.toNat := rfl
  exact runs_switch hfile htop (by omega) (hhas (hstack.mono (by omega) (by omega))) (by omega)
    hrsi hnext_lt (hhas hnext) hholds hfiles (by omega) hnext₁

/-- The word at the stack pointer of the next process is what it was. -/
theorem Ready.word_rsp (h : Ready p previous.toNat next.toNat w)
    (hsaved : Saved (called p previous next returnAddress) q previous.toNat
      ((p.get .rsp).toNat - 8)) :
    (loadedMemory q.memory w (w .rsp).toNat).word (w .rsp).toNat =
      p.memory.word (w .rsp).toNat := by
  have hroom := h.room
  have hnext_room := h.next_room
  have hapart := h.stack_next_stack
  have hprevious := h.next_stack_previous
  rw [word_loadedMemory hnext_room (by omega), hsaved.memory.word,
    word_called p _ _ _ (by omega) (by omega)]
  intro c h₁ h₂ hc
  rw [Set.mem_union, Set.mem_Ico, Set.mem_Ico] at hc
  omega

/-- Gives way, and goes on where the next process is. -/
theorem giveWay_spec (h : Ready p previous.toNat next.toNat w)
    (houtside : Outside (landing p.memory w .rip)) (returnAddress : UInt64) :
    ∃ q, giveWay p previous next returnAddress = some q ∧
      Switches p q previous next returnAddress w := by
  obtain ⟨n, u, q, hn, hruns, hsaved, hregisters, hcr3, hmemory, hspans⟩ :=
    h.runs_called returnAddress
  have hlanding : landing q.memory w = landing p.memory w := by
    rw [hmemory]
    exact landing_congr (h.word_rsp hsaved)
  have hreaches : q.reaches (w .rsp) = true := by
    have hroom := h.next_room
    have hq : q.Has ((w .rsp).toNat - 16) 24 := by
      rw [Has, hspans]
      exact h.next_stack
    exact hq.reaches (by omega) (by omega)
  obtain ⟨v, hrest, hmemory', hregisters', hcr3'⟩ :=
    exists_landing hregisters hreaches (by rw [hlanding]; exact houtside)
  refine ⟨v, ?_, ?_, ?_, ?_, ?_⟩
  · have hsteps : steps = n + (1 + (63 - n)) := by
      rw [steps]
      omega
    rw [giveWay_eq h.room h.stack, hsteps, hruns, hrest]
  · intro r
    have hr := r.offset_lt
    have hapart := h.next_stack_previous
    rw [hmemory', hmemory, word_loadedMemory h.next_room (by omega)]
    exact Saved.eq_savedRegisters h.room h.stack_previous hsaved r
  · have hcalled : (called p previous next returnAddress).memory =
        p.memory.setWord ((p.get .rsp).toNat - 8) returnAddress := rfl
    rw [hmemory', hmemory, ← hcalled]
    exact (hsaved.memory.mono Set.subset_union_left).trans
      ((agreeOutside_loadedMemory _ w h.next_room).mono Set.subset_union_right)
  · intro r hr
    rw [hregisters' r hr, hlanding]
  · rw [hcr3', hcr3]

end called

end ContextSwitch

end KernelCore
