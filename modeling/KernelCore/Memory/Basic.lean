import Std.Data.TreeMap.Lemmas

/-!
# Memory

Bytes by address: what was there at first, and what was written since. Numbers of several bytes are
little-endian. `byte_setByte` and `number_write` say how reads see writes.
-/

namespace KernelCore

structure Memory where
  initial : Nat → UInt8
  written : Std.TreeMap Nat UInt8

namespace Memory

/-- Memory that nothing was written to. -/
def filled (initial : Nat → UInt8) : Memory := ⟨initial, ∅⟩

def zeroed : Memory := filled fun _ => 0

def byte (m : Memory) (a : Nat) : UInt8 := m.written.getD a (m.initial a)

/-- Nothing is recorded where the byte is there already. -/
def setByte (m : Memory) (a : Nat) (b : UInt8) : Memory :=
  if m.byte a = b then m else { m with written := m.written.insert a b }

@[simp] theorem byte_setByte (m : Memory) (a c : Nat) (b : UInt8) :
    (m.setByte a b).byte c = if a = c then b else m.byte c := by
  unfold setByte
  split
  · split <;> simp_all
  · simp [byte, Std.TreeMap.getD_insert]

@[simp] theorem byte_filled (f : Nat → UInt8) (a : Nat) : (filled f).byte a = f a := by
  simp [byte, filled]

/-- The number in the `n` bytes from `a` on. -/
def number (m : Memory) (a : Nat) : Nat → Nat
  | 0 => 0
  | n + 1 => (m.byte a).toNat + 256 * number m (a + 1) n

def write (m : Memory) (a value : Nat) : Nat → Memory
  | 0 => m
  | n + 1 => write (m.setByte a (UInt8.ofNat value)) (a + 1) (value / 256) n

theorem byte_write_of_lt (m : Memory) {a c : Nat} (v n : Nat) (h : c < a) :
    (m.write a v n).byte c = m.byte c := by
  induction n generalizing m a v with
  | zero => rfl
  | succ n ih => rw [write, ih _ _ (by omega), byte_setByte, if_neg (by omega)]

theorem byte_write_of_le (m : Memory) {a c : Nat} (v n : Nat) (h : a + n ≤ c) :
    (m.write a v n).byte c = m.byte c := by
  induction n generalizing m a v with
  | zero => rfl
  | succ n ih => rw [write, ih _ _ (by omega), byte_setByte, if_neg (by omega)]

theorem number_congr {m k : Memory} {a n : Nat} (h : ∀ c, a ≤ c → c < a + n → m.byte c = k.byte c) :
    m.number a n = k.number a n := by
  induction n generalizing a with
  | zero => rfl
  | succ n ih =>
    rw [number, number, h a (by omega) (by omega), ih fun c h₁ h₂ => h c (by omega) (by omega)]

@[simp] theorem number_write (m : Memory) (a v n : Nat) :
    (m.write a v n).number a n = v % Nat.pow 256 n := by
  induction n generalizing m a v with
  | zero => simp [number, Nat.mod_one]
  | succ n ih =>
    rw [write, number, ih, byte_write_of_lt _ _ _ (by omega), byte_setByte, if_pos rfl,
      UInt8.toNat_ofNat']
    exact (Nat.mod_mul.trans rfl).symm.trans (congrArg (v % ·) (Nat.pow_succ' (n := n)).symm)

theorem number_write_of_disjoint (m : Memory) {a c n k : Nat} (v : Nat)
    (h : c + k ≤ a ∨ a + n ≤ c) : (m.write a v n).number c k = m.number c k := by
  refine number_congr fun d h₁ h₂ => ?_
  rcases h with h | h
  · exact byte_write_of_lt _ _ _ (by omega)
  · exact byte_write_of_le _ _ _ (by omega)

/-- The 64-bit word at an address. -/
def word (m : Memory) (a : Nat) : UInt64 := UInt64.ofNat (m.number a 8)

def setWord (m : Memory) (a : Nat) (w : UInt64) : Memory := m.write a w.toNat 8

@[simp] theorem word_setWord (m : Memory) (a : Nat) (w : UInt64) : (m.setWord a w).word a = w := by
  simp [word, setWord, Nat.mod_eq_of_lt w.toNat_lt]

theorem word_setWord_of_disjoint (m : Memory) {a c : Nat} (w : UInt64)
    (h : c + 8 ≤ a ∨ a + 8 ≤ c) : (m.setWord a w).word c = m.word c := by
  rw [word, setWord, number_write_of_disjoint _ _ h, word]

/-- The `n` bytes from an address on. -/
def bytes (m : Memory) (a n : Nat) : List UInt8 := (List.range n).map fun i => m.byte (a + i)

def setBytes (m : Memory) (a : Nat) : List UInt8 → Memory
  | [] => m
  | b :: rest => setBytes (m.setByte a b) (a + 1) rest

theorem byte_setBytes (m : Memory) (a c : Nat) (bs : List UInt8) :
    (m.setBytes a bs).byte c = if a ≤ c then bs[c - a]?.getD (m.byte c) else m.byte c := by
  induction bs generalizing m a with
  | nil => simp [setBytes]
  | cons b rest ih =>
    rw [setBytes, ih, byte_setByte]
    rcases Nat.lt_trichotomy a c with h | h | h
    · obtain ⟨d, rfl⟩ : ∃ d, c = a + 1 + d := ⟨c - a - 1, by omega⟩
      rw [if_pos (by omega), if_neg (by omega), if_pos (by omega), Nat.add_sub_cancel_left,
        show a + 1 + d - a = d + 1 by omega, List.getElem?_cons_succ]
    · subst h
      rw [if_neg (by omega), if_pos rfl, if_pos (by omega), Nat.sub_self]; simp
    · rw [if_neg (by omega), if_neg (by omega), if_neg (by omega)]

/-- Zeroes from an address on. -/
def clear (m : Memory) (a : Nat) : Nat → Memory
  | 0 => m
  | n + 1 => clear (m.setByte a 0) (a + 1) n

theorem byte_clear (m : Memory) (a n c : Nat) :
    (m.clear a n).byte c = if a ≤ c ∧ c < a + n then 0 else m.byte c := by
  induction n generalizing m a with
  | zero => rw [clear, if_neg (by omega)]
  | succ n ih =>
    rw [clear, ih, byte_setByte]
    by_cases h : a = c
    · subst h; simp
    · rw [if_neg h]; congr 1; simp only [eq_iff_iff]; omega

end Memory

/-- A stretch of memory that is there. -/
structure Span where
  base : Nat
  size : Nat
deriving DecidableEq, Repr

namespace Span

/-- Whether the `n` bytes from `a` on lie in the span. -/
def covers (s : Span) (a n : Nat) : Bool := s.base ≤ a && a + n ≤ s.base + s.size

theorem covers_iff {s : Span} {a n : Nat} :
    s.covers a n = true ↔ s.base ≤ a ∧ a + n ≤ s.base + s.size := by simp [covers]

end Span

end KernelCore
