import KernelCore.Proofs.Memory.Words

/-!
# Execution of straight-line code

Most instructions neither read nor change `rip`, so a stretch of them does the same wherever it
stands: `block` executes such a stretch without an instruction pointer, and `runs_block` says that
the processor does so when it comes to the stretch. `Runs` composes stretches and jumps.
-/

namespace KernelCore

-- comparing memories is not to come down to writing bytes
seal Memory.setWord

/-- Whether an instruction leaves `rip` alone. -/
def Instruction.plain : Instruction → Bool
  | .save source _ => source != .rip
  | .restore target _ => target != .rip
  | .move target source => target != .rip && source != .rip
  | .loadSpace source => source != .rip
  | .addressOf target _ => target != .rip
  | .push source => source != .rip
  | .pushField _ => true
  | .pop target => target != .rip
  | .compare left right => left != .rip && right != .rip
  | .test register => register != .rip
  | .jump _ | .jumpIfZeroFlag _ | .ret => false

namespace Processor

variable {code : Array Instruction} {p q u : Processor} {i : Instruction} {is : List Instruction}
  {k n a : ℕ} {w : UInt64}

theorem get_set (p : Processor) (r s : Register) (w : UInt64) :
    (p.set r w).get s = if r = s then w else p.get s :=
  Registers.get_set p.registers r s w

@[simp] theorem get_set_self (p : Processor) (r : Register) (w : UInt64) :
    (p.set r w).get r = w := by
  rw [get_set, if_pos rfl]

theorem get_set_of_ne (p : Processor) {r s : Register} (w : UInt64) (h : r ≠ s) :
    (p.set r w).get s = p.get s := by
  rw [get_set, if_neg h]

theorem ext_get (hget : ∀ r, p.get r = q.get r) (hmemory : p.memory = q.memory)
    (hspans : p.spans = q.spans) (hloads : p.loads = q.loads) : p = q := by
  cases p
  cases q
  rw [mk.injEq]
  exact ⟨Registers.ext_get hget, hmemory, hspans, hloads⟩

theorem set_comm (p : Processor) {r s : Register} (v w : UInt64) (h : r ≠ s) :
    (p.set r v).set s w = (p.set s w).set r v := by
  apply ext_get
  · intro t
    rw [get_set, get_set, get_set, get_set]
    by_cases hs : s = t
    · rw [if_pos hs, if_pos hs, if_neg fun hr => h (hr.trans hs.symm)]
    · rw [if_neg hs, if_neg hs]
  · rfl
  · rfl
  · rfl

@[simp] theorem set_set (p : Processor) (r : Register) (v w : UInt64) :
    (p.set r v).set r w = p.set r w := by
  apply ext_get
  · intro t
    rw [get_set, get_set, get_set]
    by_cases hr : r = t
    · rw [if_pos hr, if_pos hr]
    · rw [if_neg hr, if_neg hr, if_neg hr]
  · rfl
  · rfl
  · rfl

theorem set_get (p : Processor) (r : Register) : p.set r (p.get r) = p := by
  apply ext_get
  · intro s
    rw [get_set]
    by_cases hr : r = s
    · rw [if_pos hr, hr]
    · rw [if_neg hr]
  · rfl
  · rfl
  · rfl

/-! ## The instruction pointer -/

/-- The processor as it comes to the instruction at a position. -/
def goto (p : Processor) (k : ℕ) : Processor := p.set .rip (address k)

theorem get_goto (p : Processor) (k : ℕ) {r : Register} (h : r ≠ .rip) :
    (p.goto k).get r = p.get r :=
  get_set_of_ne p _ h.symm

theorem fetch?_goto (code : Array Instruction) (p : Processor) (hk : k < 2 ^ 64) :
    fetch? code (p.goto k) = code[k]? := by
  rw [fetch?, goto, get_set_self, address]
  congr 1
  rw [UInt64.add_comm, UInt64.add_sub_cancel, UInt64.toNat_ofNat_of_lt' hk]

/-- Going on to the next instruction. -/
theorem goto_succ (p : Processor) (k : ℕ) :
    (p.goto k).set .rip ((p.goto k).get .rip + 1) = p.goto (k + 1) := by
  rw [goto, get_set_self, set_set, goto, address, address, UInt64.ofNat_add, UInt64.add_assoc]
  rfl

theorem set_goto (p : Processor) (k : ℕ) {r : Register} (w : UInt64) (h : r ≠ .rip) :
    (p.goto k).set r w = (p.set r w).goto k :=
  set_comm p _ w h.symm

theorem loadWord_goto (p : Processor) (k : ℕ) (w : UInt64) : (p.goto k).loadWord w = p.loadWord w :=
  rfl

theorem storeWord_goto (p : Processor) (k : ℕ) (v w : UInt64) :
    (p.goto k).storeWord v w = (p.storeWord v w).map (·.goto k) := by
  have hreaches : (p.goto k).reaches v = p.reaches v := rfl
  have hmemory : (p.goto k).memory = p.memory := rfl
  rw [storeWord, storeWord, hreaches, hmemory]
  generalize p.memory.setWord v.toNat w = m
  cases p.reaches v <;> rfl

theorem fieldAddress_goto (p : Processor) (k : ℕ) (field : Register) :
    (p.goto k).fieldAddress field = p.fieldAddress field := by
  rw [fieldAddress, fieldAddress, get_goto p k (by decide)]

theorem pushWord_goto (p : Processor) (k : ℕ) (w : UInt64) :
    (p.goto k).pushWord w = (p.pushWord w).map (·.goto k) := by
  rw [pushWord, pushWord, get_goto p k (by decide)]
  simp only [storeWord_goto]
  cases p.storeWord (p.get .rsp - 8) w with
  | none => rfl
  | some q => exact congrArg some (set_goto q k _ (by decide))

theorem popWord_goto (p : Processor) (k : ℕ) :
    (p.goto k).popWord = p.popWord.map fun x => (x.1, x.2.goto k) := by
  rw [popWord, popWord, get_goto p k (by decide), loadWord_goto]
  cases p.loadWord (p.get .rsp) with
  | none => rfl
  | some w => exact congrArg (fun q => some (w, q)) (set_goto p k _ (by decide))

theorem setZeroFlag_goto (p : Processor) (k : ℕ) (on : Bool) :
    (p.goto k).setZeroFlag on = (p.setZeroFlag on).goto k := by
  rw [setZeroFlag, setZeroFlag, get_goto p k (by decide), set_goto p k _ (by decide)]

/-- An instruction that leaves `rip` alone does the same wherever it stands. -/
theorem execute_goto (p : Processor) (k : ℕ) (h : i.plain = true) :
    (p.goto k).execute i = (p.execute i).map (·.goto k) := by
  cases i with
  | save source field =>
    have hsource : source ≠ .rip := by simpa [Instruction.plain] using h
    rw [execute, execute, fieldAddress_goto, get_goto p k hsource, storeWord_goto]
  | restore target field =>
    have htarget : target ≠ .rip := by simpa [Instruction.plain] using h
    rw [execute, execute, fieldAddress_goto, loadWord_goto]
    cases p.loadWord (p.fieldAddress field) with
    | none => rfl
    | some w => exact congrArg some (set_goto p k w htarget)
  | move target source =>
    have hboth : target ≠ .rip ∧ source ≠ .rip := by simpa [Instruction.plain] using h
    rw [execute, execute, get_goto p k hboth.2, set_goto p k _ hboth.1]
    rfl
  | loadSpace source =>
    have hsource : source ≠ .rip := by simpa [Instruction.plain] using h
    rw [execute, execute, get_goto p k hsource, set_goto p k _ (by decide)]
    rfl
  | addressOf target position =>
    have htarget : target ≠ .rip := by simpa [Instruction.plain] using h
    rw [execute, execute, set_goto p k _ htarget]
    rfl
  | push source =>
    have hsource : source ≠ .rip := by simpa [Instruction.plain] using h
    rw [execute, execute, get_goto p k hsource, pushWord_goto]
  | pushField field =>
    rw [execute, execute, fieldAddress_goto, loadWord_goto]
    cases p.loadWord (p.fieldAddress field) with
    | none => rfl
    | some w => exact pushWord_goto p k w
  | pop target =>
    have htarget : target ≠ .rip := by simpa [Instruction.plain] using h
    rw [execute, execute, popWord_goto]
    cases p.popWord with
    | none => rfl
    | some x => exact congrArg some (set_goto x.2 k x.1 htarget)
  | compare left right =>
    have hboth : left ≠ .rip ∧ right ≠ .rip := by simpa [Instruction.plain] using h
    rw [execute, execute, get_goto p k hboth.1, get_goto p k hboth.2, setZeroFlag_goto]
    rfl
  | test register =>
    have hregister : register ≠ .rip := by simpa [Instruction.plain] using h
    rw [execute, execute, get_goto p k hregister, setZeroFlag_goto]
    rfl
  | jump position => contradiction
  | jumpIfZeroFlag position => contradiction
  | ret => contradiction

/-! ## Stretches of code -/

/-- Executes instructions one after the other, with no regard to `rip`. -/
def block (is : List Instruction) (p : Processor) : Option Processor :=
  is.foldlM execute p

theorem block_cons (i : Instruction) (is : List Instruction) (p : Processor) :
    block (i :: is) p = (p.execute i).bind (block is) :=
  rfl

theorem block_append (is js : List Instruction) (p : Processor) :
    block (is ++ js) p = (block is p).bind (block js) :=
  List.foldlM_append

/-- The first `n` instructions take one processor to the other, however many are still allowed. -/
def Runs (code : Array Instruction) (n : ℕ) (p q : Processor) : Prop :=
  ∀ m, run code (n + m) p = run code m q

theorem Runs.refl (code : Array Instruction) (p : Processor) : Runs code 0 p p := by
  intro m
  rw [Nat.zero_add]

theorem Runs.trans (h₁ : Runs code k p q) (h₂ : Runs code n q u) : Runs code (k + n) p u := by
  intro m
  rw [Nat.add_assoc, h₁, h₂]

/-- One instruction, of any kind. -/
theorem runs_one (hi : code[k]? = some i) (hk : k < 2 ^ 64)
    (h : (p.goto (k + 1)).execute i = some q) : Runs code 1 (p.goto k) q := by
  intro m
  have hfetch : fetch? code (p.goto k) = some i := (fetch?_goto code p hk).trans hi
  rw [Nat.add_comm, run, hfetch]
  simp only [goto_succ, h]

theorem runs_block (hcode : ∀ j < is.length, code[k + j]? = is[j]?)
    (hk : k + is.length < 2 ^ 64) (hplain : ∀ i ∈ is, i.plain = true)
    (h : block is p = some q) : Runs code is.length (p.goto k) (q.goto (k + is.length)) := by
  induction is generalizing p k with
  | nil =>
    obtain rfl := Option.some.inj h
    exact .refl code _
  | cons i is ih =>
    rw [List.length_cons] at hcode hk ⊢
    rw [block_cons] at h
    cases hexecute : p.execute i with
    | none => simp [hexecute] at h
    | some u =>
      rw [hexecute] at h
      have hi : code[k]? = some i := hcode 0 (by omega)
      have hfirst : Runs code 1 (p.goto k) (u.goto (k + 1)) := by
        apply runs_one hi (by omega)
        rw [execute_goto p (k + 1) (hplain i List.mem_cons_self), hexecute, Option.map_some]
      have hcode' : ∀ j < is.length, code[k + 1 + j]? = is[j]? := by
        intro j hj
        have hnext := hcode (j + 1) (by omega)
        rw [List.getElem?_cons_succ] at hnext
        rw [← hnext, Nat.add_assoc, Nat.add_comm 1 j]
      have hrest := ih hcode' (by omega) (fun j hj => hplain j (List.mem_cons_of_mem i hj)) h
      have hboth := hfirst.trans hrest
      rwa [Nat.add_comm 1, Nat.add_assoc, Nat.add_comm 1] at hboth

theorem runs_jump {j : ℕ} (hi : code[k]? = some (.jump j)) (hk : k < 2 ^ 64) :
    Runs code 1 (p.goto k) (p.goto j) := by
  apply runs_one hi hk
  rw [execute, goto, set_set]
  rfl

/-- Whether the zero flag is set. -/
def zeroFlag (p : Processor) : Bool := p.get .rflags &&& Registers.zeroFlag != 0

theorem zeroFlag_setZeroFlag (p : Processor) (on : Bool) : (p.setZeroFlag on).zeroFlag = on := by
  have hset : ∀ flags : UInt64,
      (flags ||| Registers.zeroFlag) &&& Registers.zeroFlag = Registers.zeroFlag := by
    intro flags
    rw [← UInt64.toBitVec_inj]
    ext i hi
    simp only [UInt64.toBitVec_and, UInt64.toBitVec_or, BitVec.getElem_and, BitVec.getElem_or]
    cases Registers.zeroFlag.toBitVec[i] <;> simp
  have hclear : ∀ flags : UInt64, (flags &&& ~~~Registers.zeroFlag) &&& Registers.zeroFlag = 0 := by
    intro flags
    rw [UInt64.and_assoc]
    exact UInt64.and_zero
  rw [setZeroFlag, zeroFlag, get_set_self]
  cases on with
  | true => rw [if_pos rfl, hset]; rfl
  | false => rw [if_neg (by decide), hclear]; rfl

theorem get_setZeroFlag (p : Processor) (on : Bool) {r : Register} (h : r ≠ .rflags) :
    (p.setZeroFlag on).get r = p.get r :=
  get_set_of_ne p _ h.symm

theorem runs_jumpIfZeroFlag {j : ℕ} (hi : code[k]? = some (.jumpIfZeroFlag j)) (hk : k < 2 ^ 64) :
    Runs code 1 (p.goto k) (p.goto (if p.zeroFlag then j else k + 1)) := by
  have hflag : ((p.goto (k + 1)).get .rflags &&& Registers.zeroFlag != 0) = p.zeroFlag := by
    rw [zeroFlag, get_goto p _ (by decide)]
  apply runs_one hi hk
  rw [execute, hflag]
  cases p.zeroFlag with
  | true =>
    rw [if_pos rfl, if_pos rfl, goto, set_set]
    rfl
  | false => rw [if_neg (by decide), if_neg (by decide)]

/-- A processor that has left the code executes no more of it. -/
theorem run_of_fetch?_eq_none (h : fetch? code p = none) (m : ℕ) : run code m p = some p := by
  cases m with
  | zero => rfl
  | succ m => rw [run, h]

/-! ## Memory that is there -/

/-- There is memory at the `n` bytes from `a` on. -/
def Has (p : Processor) (a n : ℕ) : Prop := ∃ s ∈ p.spans, s.covers a n = true

theorem Has.mono {b k : ℕ} (h : p.Has a n) (h₁ : a ≤ b) (h₂ : b + k ≤ a + n) : p.Has b k := by
  obtain ⟨s, hs, hcovers⟩ := h
  rw [Span.covers_iff] at hcovers
  exact ⟨s, hs, Span.covers_iff.mpr (by omega)⟩

theorem Has.reaches (h : p.Has a n) (h₁ : a ≤ w.toNat) (h₂ : w.toNat + 8 ≤ a + n) :
    p.reaches w = true := by
  obtain ⟨s, hs, hcovers⟩ := h
  rw [Span.covers_iff] at hcovers
  rw [Processor.reaches, List.any_eq_true]
  exact ⟨s, hs, Span.covers_iff.mpr (by omega)⟩

def withMemory (p : Processor) (m : Memory) : Processor := { p with memory := m }

@[simp] theorem get_withMemory (p : Processor) (m : Memory) (r : Register) :
    (p.withMemory m).get r = p.get r :=
  rfl

@[simp] theorem withMemory_withMemory (p : Processor) (m k : Memory) :
    (p.withMemory m).withMemory k = p.withMemory k :=
  rfl

@[simp] theorem memory_withMemory (p : Processor) (m : Memory) : (p.withMemory m).memory = m :=
  rfl

@[simp] theorem spans_withMemory (p : Processor) (m : Memory) : (p.withMemory m).spans = p.spans :=
  rfl

@[simp] theorem memory_set (p : Processor) (r : Register) (w : UInt64) :
    (p.set r w).memory = p.memory :=
  rfl

@[simp] theorem spans_set (p : Processor) (r : Register) (w : UInt64) :
    (p.set r w).spans = p.spans :=
  rfl

theorem loadWord_eq (h : p.reaches w = true) : p.loadWord w = some (p.memory.word w.toNat) := by
  rw [loadWord, if_pos h]

theorem storeWord_eq (h : p.reaches w = true) (v : UInt64) :
    p.storeWord w v = some (p.withMemory (p.memory.setWord w.toNat v)) := by
  rw [storeWord, if_pos h, withMemory]

theorem toNat_sub_eight (h : 8 ≤ w.toNat) : (w - 8).toNat = w.toNat - 8 := by
  have hle : 8 ≤ w := UInt64.le_iff_toNat_le.mpr h
  rw [UInt64.toNat_sub_of_le w 8 hle]
  rfl

theorem toNat_sub_sixteen (h : 16 ≤ w.toNat) : (w - 8 - 8).toNat = w.toNat - 16 := by
  have hle : (w - 8).toNat = w.toNat - 8 := toNat_sub_eight (by omega)
  rw [toNat_sub_eight (by omega), hle]
  omega

theorem pushWord_eq (h : p.reaches (p.get .rsp - 8) = true) (v : UInt64) :
    p.pushWord v =
      some ((p.withMemory (p.memory.setWord (p.get .rsp - 8).toNat v)).set .rsp
        (p.get .rsp - 8)) := by
  rw [pushWord, storeWord_eq h]
  rfl

theorem popWord_eq (h : p.reaches (p.get .rsp) = true) :
    p.popWord = some (p.memory.word (p.get .rsp).toNat, p.set .rsp (p.get .rsp + 8)) := by
  rw [popWord, loadWord_eq h]
  rfl

/-- A register goes into another one by way of the word below the stack pointer. -/
theorem block_push_pop (h : p.reaches (p.get .rsp - 8) = true) (source target : Register) :
    block [.push source, .pop target] p =
      some ((p.withMemory (p.memory.setWord (p.get .rsp - 8).toNat (p.get source))).set target
        (p.get source)) := by
  let u := (p.withMemory (p.memory.setWord (p.get .rsp - 8).toNat (p.get source))).set .rsp
    (p.get .rsp - 8)
  have hpush : p.execute (.push source) = some u := by rw [execute, pushWord_eq h]
  have hrsp : u.get .rsp = p.get .rsp - 8 := get_set_self _ _ _
  have hback : u.set .rsp (p.get .rsp - 8 + 8) =
      p.withMemory (p.memory.setWord (p.get .rsp - 8).toNat (p.get source)) := by
    rw [set_set, UInt64.sub_add_cancel]
    exact set_get _ .rsp
  have hpop : u.popWord = some (p.get source,
      p.withMemory (p.memory.setWord (p.get .rsp - 8).toNat (p.get source))) := by
    rw [popWord_eq (by rw [hrsp]; exact h), hrsp, hback, memory_set, memory_withMemory,
      Memory.word_setWord]
  rw [block_cons, hpush, Option.bind_some, block_cons, execute, hpop]
  rfl

theorem runs_ret (hi : code[k]? = some .ret) (hk : k < 2 ^ 64)
    (h : p.reaches (p.get .rsp) = true) :
    Runs code 1 (p.goto k)
      ((p.set .rsp (p.get .rsp + 8)).set .rip (p.memory.word (p.get .rsp).toNat)) := by
  have hpop := popWord_goto p (k + 1)
  rw [popWord_eq h, Option.map_some] at hpop
  apply runs_one hi hk
  rw [execute, hpop]
  exact congrArg some (set_set _ .rip _ _)

end Processor

end KernelCore
