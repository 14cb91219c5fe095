import KernelCore.Cpu.Processor
import Mathlib

/-!
# Words in memory

A word depends on its own eight bytes, and writing one changes no others. A register file in memory
is 19 words, one after the other, so its fields are written and read without regard to each other.
-/

namespace KernelCore

namespace Register

theorem offset_lt (r : Register) : r.offset + 8 ≤ 152 := by
  cases r <;> decide

theorem offset_apart {r s : Register} (h : r ≠ s) :
    r.offset + 8 ≤ s.offset ∨ s.offset + 8 ≤ r.offset := by
  have hall : ∀ r ∈ all, ∀ s ∈ all, r ≠ s → r.offset + 8 ≤ s.offset ∨ s.offset + 8 ≤ r.offset := by
    decide
  exact hall r (mem_all r) s (mem_all s) h

end Register

namespace Memory

variable {m k l : Memory} {a c n : ℕ} {s t : Set ℕ} {rs : List Register} {r : Register}

theorem word_congr (h : ∀ c, a ≤ c → c < a + 8 → m.byte c = k.byte c) : m.word a = k.word a :=
  congrArg UInt64.ofNat (number_congr h)

theorem byte_setWord_of_disjoint (w : UInt64) (h : c < a ∨ a + 8 ≤ c) :
    (m.setWord a w).byte c = m.byte c := by
  rw [setWord]
  cases h with
  | inl hbelow => exact byte_write_of_lt m _ _ hbelow
  | inr habove => exact byte_write_of_le m _ _ habove

/-- The second memory is the first one but for bytes of a set. -/
def AgreeOutside (s : Set ℕ) (m k : Memory) : Prop := ∀ c, c ∉ s → k.byte c = m.byte c

theorem AgreeOutside.refl (s : Set ℕ) (m : Memory) : AgreeOutside s m m := by
  intro c _
  rfl

theorem AgreeOutside.trans (h₁ : AgreeOutside s m k) (h₂ : AgreeOutside s k l) :
    AgreeOutside s m l := by
  intro c hc
  rw [h₂ c hc, h₁ c hc]

theorem AgreeOutside.mono (h : AgreeOutside s m k) (hst : s ⊆ t) : AgreeOutside t m k := by
  intro c hc
  exact h c fun hs => hc (hst hs)

theorem AgreeOutside.word (h : AgreeOutside s m k) (hc : ∀ d, c ≤ d → d < c + 8 → d ∉ s) :
    k.word c = m.word c := by
  apply word_congr
  intro d h₁ h₂
  exact h d (hc d h₁ h₂)

theorem agreeOutside_setWord (m : Memory) (a : ℕ) (w : UInt64) :
    AgreeOutside (Set.Ico a (a + 8)) m (m.setWord a w) := by
  intro c hc
  rw [Set.mem_Ico] at hc
  exact byte_setWord_of_disjoint w (by omega)

/-- Writes fields of the register file at an address. -/
def setFields (m : Memory) (a : ℕ) (w : Register → UInt64) (rs : List Register) : Memory :=
  rs.foldl (fun m r => m.setWord (a + r.offset) (w r)) m

theorem setFields_cons (m : Memory) (a : ℕ) (w : Register → UInt64) (r : Register)
    (rs : List Register) :
    m.setFields a w (r :: rs) = (m.setWord (a + r.offset) (w r)).setFields a w rs := by
  rw [setFields, List.foldl_cons, setFields]

theorem agreeOutside_setFields (m : Memory) (a : ℕ) (w : Register → UInt64)
    (h : ∀ r ∈ rs, r.offset + 8 ≤ n) :
    AgreeOutside (Set.Ico a (a + n)) m (m.setFields a w rs) := by
  induction rs generalizing m with
  | nil => exact .refl _ m
  | cons r rs ih =>
    have hr := h r List.mem_cons_self
    have hfirst : AgreeOutside (Set.Ico a (a + n)) m (m.setWord (a + r.offset) (w r)) := by
      apply (agreeOutside_setWord m (a + r.offset) (w r)).mono
      intro c hc
      rw [Set.mem_Ico] at hc ⊢
      omega
    have hrest := ih (m.setWord (a + r.offset) (w r)) fun s hs => h s (List.mem_cons_of_mem r hs)
    rw [setFields_cons]
    exact hfirst.trans hrest

theorem word_setFields_of_notMem (m : Memory) (a : ℕ) (w : Register → UInt64) (h : r ∉ rs) :
    (m.setFields a w rs).word (a + r.offset) = m.word (a + r.offset) := by
  induction rs generalizing m with
  | nil => rfl
  | cons s rs ih =>
    rw [List.mem_cons, not_or] at h
    rw [setFields_cons, ih _ h.2]
    have hapart := Register.offset_apart h.1
    exact word_setWord_of_disjoint m (w s) (by omega)

theorem word_setFields (m : Memory) (a : ℕ) (w : Register → UInt64) (h : r ∈ rs) :
    (m.setFields a w rs).word (a + r.offset) = w r := by
  induction rs generalizing m with
  | nil => contradiction
  | cons s rs ih =>
    rw [setFields_cons]
    by_cases hrs : r ∈ rs
    · exact ih _ hrs
    · -- the field is written first, and never again
      have hsr : r = s := (List.mem_cons.mp h).resolve_right hrs
      rw [word_setFields_of_notMem _ a w hrs, hsr, word_setWord]

end Memory

namespace Registers

variable {m k : Memory} {a : ℕ}

theorem store_eq (f : Registers) (m : Memory) (a : ℕ) :
    f.store m a = m.setFields a f.get Register.all :=
  rfl

theorem word_store (f : Registers) (m : Memory) (a : ℕ) (r : Register) :
    (f.store m a).word (a + r.offset) = f.get r := by
  rw [store_eq, Memory.word_setFields m a f.get (Register.mem_all r)]

theorem agreeOutside_store (f : Registers) (m : Memory) (a : ℕ) :
    Memory.AgreeOutside (Set.Ico a (a + 152)) m (f.store m a) := by
  rw [store_eq]
  exact Memory.agreeOutside_setFields m a f.get fun r _ => r.offset_lt

@[simp] theorem get_load (m : Memory) (a : ℕ) (r : Register) :
    (load m a).get r = m.word (a + r.offset) := by
  rw [load, get_ofFn]

end Registers

end KernelCore
