import KernelCore.Proofs.Cpu.Execution

/-!
# Saving and restoring registers

With `rdi` at a register file, a row of saves writes its fields, and a row of restores sets
registers from them.
-/

namespace KernelCore

seal Memory.setWord

namespace Processor

variable {p q : Processor} {rs : List Register} {a : ℕ}

/-- `rdi` points at memory for a register file. -/
structure AtFile (p : Processor) (a : ℕ) : Prop where
  rdi : (p.get .rdi).toNat = a
  lt : a + 152 ≤ 2 ^ 64
  has : p.Has a 152

theorem AtFile.toNat_fieldAddress (h : p.AtFile a) (r : Register) :
    (p.fieldAddress r).toNat = a + r.offset := by
  have hr := r.offset_lt
  have hlt := h.lt
  have hsize : UInt64.size = 2 ^ 64 := rfl
  rw [fieldAddress, UInt64.toNat_add, h.rdi, UInt64.toNat_ofNat_of_lt' (by omega),
    Nat.mod_eq_of_lt (by omega)]

theorem AtFile.reaches (h : p.AtFile a) (r : Register) :
    p.reaches (p.fieldAddress r) = true := by
  have hr := r.offset_lt
  apply h.has.reaches
  · rw [h.toNat_fieldAddress]; omega
  · rw [h.toNat_fieldAddress]; omega

theorem AtFile.execute_save (h : p.AtFile a) (source field : Register) :
    p.execute (.save source field) =
      some (p.withMemory (p.memory.setWord (a + field.offset) (p.get source))) := by
  rw [execute, storeWord_eq (h.reaches field), h.toNat_fieldAddress]

theorem AtFile.execute_restore (h : p.AtFile a) (target field : Register) :
    p.execute (.restore target field) =
      some (p.set target (p.memory.word (a + field.offset))) := by
  rw [execute, loadWord_eq (h.reaches field), h.toNat_fieldAddress]
  rfl

theorem AtFile.execute_pushField (h : p.AtFile a) (field : Register) :
    p.execute (.pushField field) = p.pushWord (p.memory.word (a + field.offset)) := by
  rw [execute, loadWord_eq (h.reaches field), h.toNat_fieldAddress]
  rfl

theorem AtFile.of_eq (h : p.AtFile a) (hrdi : q.get .rdi = p.get .rdi)
    (hspans : q.spans = p.spans) : q.AtFile a := by
  refine ⟨?_, h.lt, ?_⟩
  · rw [hrdi, h.rdi]
  · rw [Has, hspans]; exact h.has

/-- Saving registers, each into its own field. -/
theorem AtFile.block_save (h : p.AtFile a) (rs : List Register) :
    block (rs.map fun r => .save r r) p = some (p.withMemory (p.memory.setFields a p.get rs)) := by
  induction rs generalizing p with
  | nil => rfl
  | cons r rs ih =>
    have hnext : (p.withMemory (p.memory.setWord (a + r.offset) (p.get r))).AtFile a :=
      h.of_eq (get_withMemory p _ .rdi) (spans_withMemory p _)
    have hget : (p.withMemory (p.memory.setWord (a + r.offset) (p.get r))).get = p.get := by
      funext s
      rw [get_withMemory]
    rw [List.map_cons, block_cons, h.execute_save, Option.bind_some, ih hnext, hget,
      memory_withMemory, withMemory_withMemory, Memory.setFields_cons]

/-- Sets registers to given values. -/
def setAll (p : Processor) (w : Register → UInt64) (rs : List Register) : Processor :=
  rs.foldl (fun p r => p.set r (w r)) p

theorem setAll_cons (p : Processor) (w : Register → UInt64) (r : Register) (rs : List Register) :
    p.setAll w (r :: rs) = (p.set r (w r)).setAll w rs :=
  rfl

theorem get_setAll (p : Processor) (w : Register → UInt64) (rs : List Register) (r : Register) :
    (p.setAll w rs).get r = if r ∈ rs then w r else p.get r := by
  induction rs generalizing p with
  | nil => rfl
  | cons s rs ih =>
    rw [setAll_cons, ih, get_set]
    by_cases hrs : r ∈ rs
    · rw [if_pos hrs, if_pos (List.mem_cons_of_mem s hrs)]
    · by_cases hs : s = r
      · subst hs
        rw [if_neg hrs, if_pos rfl, if_pos List.mem_cons_self]
      · rw [if_neg hrs, if_neg hs, if_neg]
        rw [List.mem_cons, not_or]
        exact ⟨Ne.symm hs, hrs⟩

@[simp] theorem memory_setAll (p : Processor) (w : Register → UInt64) (rs : List Register) :
    (p.setAll w rs).memory = p.memory := by
  induction rs generalizing p with
  | nil => rfl
  | cons r rs ih => rw [setAll_cons, ih, memory_set]

@[simp] theorem spans_setAll (p : Processor) (w : Register → UInt64) (rs : List Register) :
    (p.setAll w rs).spans = p.spans := by
  induction rs generalizing p with
  | nil => rfl
  | cons r rs ih => rw [setAll_cons, ih, spans_set]

/-- Restoring registers, each from its own field, as long as the file stays in sight. -/
theorem AtFile.block_restore (h : p.AtFile a) (hrdi : .rdi ∉ rs) :
    block (rs.map fun r => .restore r r) p =
      some (p.setAll (fun r => p.memory.word (a + r.offset)) rs) := by
  induction rs generalizing p with
  | nil => rfl
  | cons r rs ih =>
    rw [List.mem_cons, not_or] at hrdi
    have hnext : (p.set r (p.memory.word (a + r.offset))).AtFile a :=
      h.of_eq (get_set_of_ne p _ (Ne.symm hrdi.1)) rfl
    rw [List.map_cons, block_cons, h.execute_restore, Option.bind_some, ih hnext hrdi.2]
    rfl

end Processor

end KernelCore
