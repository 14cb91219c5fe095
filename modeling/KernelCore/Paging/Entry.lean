import KernelCore.Address
import KernelCore.Text.Hex

/-!
# Page table entries

An entry is a word: bits 12 to 51 hold the address of a frame, the others are flags. The tables form
four levels; the entries of the upper three link to tables of the next one. Entries are read bit by
bit through `bit`, and the lemmas say which bits each kind of entry has.
-/

namespace KernelCore

/-- The levels whose entries link to another table. -/
inductive LinkLevel
  | pml4 | pdpt | pd
deriving DecidableEq, Repr

def LinkLevel.name : LinkLevel → String
  | .pml4 => "Pml4" | .pdpt => "Pdpt" | .pd => "Pd"

/-- Position in a table. -/
abbrev TableIndex := Fin 512

/-- Position of an address in a table whose entries stand for `span` bytes each. -/
def VirtAddr.index (v : VirtAddr) (span : Nat) : TableIndex :=
  ⟨v.val / span % 512, Nat.mod_lt _ (by decide)⟩

/-- Bytes that an entry stands for. -/
def LinkLevel.span : LinkLevel → Nat
  | .pml4 => 0x8000000000
  | .pdpt => 0x40000000
  | .pd => 0x200000

def LinkLevel.index (level : LinkLevel) (v : VirtAddr) : TableIndex := v.index level.span

/-- Position of a page in the last table. -/
def VirtAddr.leafIndex (v : VirtAddr) : TableIndex := v.index 4096

structure Entry where
  bits : UInt64
deriving DecidableEq, Repr

namespace Entry

def absent : Entry := ⟨0⟩

def isPresent (e : Entry) : Bool := e.bits &&& 1 != 0

def isHuge (e : Entry) : Bool := e.bits &&& 0x80 != 0

def address (e : Entry) : PhysAddr :=
  ⟨e.bits.toNat / 4096 % 0x10000000000 * 4096, by omega⟩

/-- The bits outside the address. -/
def flags (e : Entry) : UInt64 := e.bits &&& 0xfff0000000000fff

/-- Link to a table: present and writable. -/
def link (f : Frame) : Entry := ⟨UInt64.ofNat f.base.val ||| 3⟩

/-- Leaf for the frame of an address below 2^48, with the attributes that are no address bits. It is
present and writable in any case. -/
def leaf (p : PhysAddr) (attributes : UInt64) : Entry :=
  ⟨(UInt64.ofNat p.val &&& 0x0000fffffffff000) ||| (attributes &&& 0xfff0000000000fff) ||| 3⟩

/-- The entry with nothing but its present bit taken away. -/
def withdrawn (e : Entry) : Entry := ⟨e.bits &&& ~~~1⟩

/-- Bit `i` of the word. -/
def bit (e : Entry) (i : Nat) : Bool := e.bits.toNat.testBit i

theorem bit_of_le (e : Entry) {i : Nat} (h : 64 ≤ i) : e.bit i = false :=
  Nat.testBit_lt_two_pow (Nat.lt_of_lt_of_le e.bits.toNat_lt (Nat.pow_le_pow_right (by decide) h))

@[simp] theorem bit_absent (i : Nat) : absent.bit i = false := Nat.zero_testBit i

theorem and_shiftLeft_bne_zero (w k : Nat) : (w &&& 1 <<< k != 0) = w.testBit k := by
  rw [Nat.one_shiftLeft]
  have h : w &&& 2 ^ k = if w.testBit k then 2 ^ k else 0 := by
    apply Nat.eq_of_testBit_eq
    intro i
    rw [Nat.testBit_and, Nat.testBit_two_pow]
    by_cases hk : k = i
    · subst hk; cases hw : w.testBit k <;> simp
    · split <;> simp [hk]
  rw [h]
  cases w.testBit k <;> simp

theorem word_bne_zero (w : UInt64) : (w != 0) = (w.toNat != 0) := by
  rw [Bool.eq_iff_iff]; simp [← UInt64.toNat_inj]

theorem isPresent_eq_bit (e : Entry) : e.isPresent = e.bit 0 := by
  rw [isPresent, word_bne_zero, UInt64.toNat_and]
  exact and_shiftLeft_bne_zero _ 0

theorem isHuge_eq_bit (e : Entry) : e.isHuge = e.bit 7 := by
  rw [isHuge, word_bne_zero, UInt64.toNat_and]
  exact and_shiftLeft_bne_zero _ 7

theorem testBit_address (e : Entry) (i : Nat) :
    e.address.val.testBit i = (decide (12 ≤ i ∧ i < 52) && e.bit i) := by
  have h : e.address.val = 2 ^ 12 * (e.bits.toNat / 2 ^ 12 % 2 ^ 40) := by
    simp only [address]; omega
  rw [h, Nat.testBit_two_pow_mul, Nat.testBit_mod_two_pow, Nat.testBit_div_two_pow, bit]
  by_cases h₁ : 12 ≤ i
  · simp [h₁, show i - 12 + 12 = i by omega, show i - 12 < 40 ↔ i < 52 by omega]
  · simp [h₁]

theorem bit_link (f : Frame) (i : Nat) :
    (link f).bit i = (f.base.val.testBit i || decide (i < 2)) := by
  have hf : f.base.val < 2 ^ 64 := by have := f.base.lt; omega
  rw [bit, link, UInt64.toNat_or, Nat.testBit_or, UInt64.toNat_ofNat', Nat.mod_eq_of_lt hf]
  exact congrArg _ (Nat.testBit_two_pow_sub_one 2 i)

@[simp] theorem isPresent_link (f : Frame) : (link f).isPresent = true := by
  simp [isPresent_eq_bit, bit_link]

@[simp] theorem isHuge_link (f : Frame) : (link f).isHuge = false := by
  simp [isHuge_eq_bit, bit_link, Frame.testBit_base]

@[simp] theorem address_link (f : Frame) : (link f).address = f.base := by
  ext1
  apply Nat.eq_of_testBit_eq
  intro i
  rw [testBit_address, bit_link, Frame.testBit_base]
  by_cases h₁ : 12 ≤ i
  · by_cases h₂ : i < 52
    · simp [h₁, h₂, show ¬ i < 2 by omega]
    · have : f.number.testBit (i - 12) = false :=
        Nat.testBit_lt_two_pow (Nat.lt_of_lt_of_le (show f.number < 2 ^ 40 from f.lt)
          (Nat.pow_le_pow_right (by decide) (by omega)))
      simp [h₂, this]
  · simp [h₁]

theorem bit_leaf (p : PhysAddr) (attributes : UInt64) (i : Nat) :
    (leaf p attributes).bit i =
      ((decide (12 ≤ i ∧ i < 48) && p.val.testBit i) ||
        (decide (i < 12 ∨ 52 ≤ i) && attributes.toNat.testBit i) || decide (i < 2)) := by
  have hp : p.val < 2 ^ 64 := by have := p.lt; omega
  by_cases hi : i < 64
  · have ha : ∀ i : Fin 64, (0x0000fffffffff000 : UInt64).toNat.testBit i.val =
        decide (12 ≤ i.val ∧ i.val < 48) := by decide
    have hf : ∀ i : Fin 64, (0xfff0000000000fff : UInt64).toNat.testBit i.val =
        decide (i.val < 12 ∨ 52 ≤ i.val) := by decide
    have h3 : ∀ i : Fin 64, (3 : UInt64).toNat.testBit i.val = decide (i.val < 2) := by decide
    rw [bit, leaf]
    simp only [UInt64.toNat_or, UInt64.toNat_and, Nat.testBit_or, Nat.testBit_and,
      UInt64.toNat_ofNat', Nat.mod_eq_of_lt hp, ha ⟨i, hi⟩, hf ⟨i, hi⟩, h3 ⟨i, hi⟩]
    rw [Bool.and_comm (p.val.testBit i), Bool.and_comm (attributes.toNat.testBit i)]
  · have : attributes.toNat.testBit i = false :=
      Nat.testBit_lt_two_pow (Nat.lt_of_lt_of_le attributes.toNat_lt
        (Nat.pow_le_pow_right (by decide) (by omega)))
    rw [bit_of_le _ (by omega), this]
    simp only [Bool.and_false, Bool.or_false]
    rw [decide_eq_false (by omega), decide_eq_false (by omega)]; rfl

@[simp] theorem isPresent_leaf (p : PhysAddr) (attributes : UInt64) :
    (leaf p attributes).isPresent = true := by
  simp [isPresent_eq_bit, bit_leaf]

theorem bit_withdrawn (e : Entry) (i : Nat) : e.withdrawn.bit i = (e.bit i && i != 0) := by
  by_cases h : i < 64
  · have hm : ∀ i : Fin 64, (~~~1 : UInt64).toNat.testBit i.val = (i.val != 0) := by decide
    rw [bit, withdrawn, UInt64.toNat_and, Nat.testBit_and, hm ⟨i, h⟩, bit]
  · rw [bit_of_le _ (by omega), bit_of_le _ (by omega), Bool.false_and]

@[simp] theorem isPresent_withdrawn (e : Entry) : e.withdrawn.isPresent = false := by
  simp [isPresent_eq_bit, bit_withdrawn]

end Entry

end KernelCore
