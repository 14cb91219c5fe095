/-!
# Bitmaps

One bit per index, eight to a byte, the lowest bit first. A bitmap may be longer than the indices in
use need; reads past its end see clear bits and writes past its end are dropped.
-/

namespace KernelCore

structure Bitmap where
  bytes : Array UInt8
deriving DecidableEq, Repr

namespace Bitmap

def get (m : Bitmap) (i : Nat) : Bool := (m.bytes[i / 8]?.getD 0).toNat.testBit (i % 8)

def setIn (b : UInt8) (k : Nat) : UInt8 := UInt8.ofNat (b.toNat ||| 1 <<< k)

/-- Flips a bit, which clears it where it was set. -/
def flipIn (b : UInt8) (k : Nat) : UInt8 := UInt8.ofNat (b.toNat ^^^ 1 <<< k)

def set (m : Bitmap) (i : Nat) : Bitmap := ⟨m.bytes.modify (i / 8) (setIn · (i % 8))⟩

def clear (m : Bitmap) (i : Nat) : Bitmap :=
  if m.get i then ⟨m.bytes.modify (i / 8) (flipIn · (i % 8))⟩ else m

/-- Zeroes in the first `n` bytes. -/
def clearBytes (m : Bitmap) (n : Nat) : Bitmap :=
  ⟨m.bytes.mapIdx fun j b => if j < n then 0 else b⟩

theorem testBit_setIn (b : UInt8) {k : Nat} (j : Nat) (hk : k < 8) :
    (setIn b k).toNat.testBit j = (b.toNat.testBit j || decide (k = j)) := by
  have hp : 2 ^ k < 2 ^ 8 := Nat.pow_lt_pow_right (by decide) hk
  rw [setIn, Nat.one_shiftLeft, UInt8.toNat_ofNat', Nat.mod_eq_of_lt (Nat.or_lt_two_pow b.toNat_lt hp),
    Nat.testBit_or, Nat.testBit_two_pow]

theorem testBit_flipIn (b : UInt8) {k : Nat} (j : Nat) (hk : k < 8) :
    (flipIn b k).toNat.testBit j = (b.toNat.testBit j ^^ decide (k = j)) := by
  have hp : 2 ^ k < 2 ^ 8 := Nat.pow_lt_pow_right (by decide) hk
  rw [flipIn, Nat.one_shiftLeft, UInt8.toNat_ofNat', Nat.mod_eq_of_lt (Nat.xor_lt_two_pow b.toNat_lt hp),
    Nat.testBit_xor, Nat.testBit_two_pow]

@[simp] theorem size_set (m : Bitmap) (i : Nat) : (m.set i).bytes.size = m.bytes.size := by
  simp [set]

@[simp] theorem size_clear (m : Bitmap) (i : Nat) : (m.clear i).bytes.size = m.bytes.size := by
  unfold clear; split <;> simp

@[simp] theorem size_clearBytes (m : Bitmap) (n : Nat) :
    (m.clearBytes n).bytes.size = m.bytes.size := by
  simp [clearBytes]

theorem get_set (m : Bitmap) {i : Nat} (j : Nat) (h : i / 8 < m.bytes.size) :
    (m.set i).get j = (m.get j || decide (i = j)) := by
  have hi := Nat.div_add_mod i 8
  have hj := Nat.div_add_mod j 8
  simp only [get, set, Array.getElem?_modify]
  by_cases hq : i / 8 = j / 8
  · have hb : m.bytes[j / 8]? = some m.bytes[i / 8] := by simp [← hq, h]
    have hij : decide (i % 8 = j % 8) = decide (i = j) := by
      rw [decide_eq_decide]; omega
    rw [if_pos hq, hb]
    simpa [hij] using testBit_setIn m.bytes[i / 8] (j % 8) (Nat.mod_lt i (by decide))
  · rw [if_neg hq, decide_eq_false (by omega), Bool.or_false]

theorem get_clear (m : Bitmap) (i j : Nat) :
    (m.clear i).get j = (m.get j && !decide (i = j)) := by
  have hi := Nat.div_add_mod i 8
  have hj := Nat.div_add_mod j 8
  unfold clear
  by_cases hg : m.get i
  · have hsz : i / 8 < m.bytes.size := by
      apply Decidable.byContradiction
      intro h
      simp [get, Array.getElem?_eq_none (Nat.not_lt.mp h)] at hg
    rw [if_pos hg]
    simp only [get, Array.getElem?_modify]
    by_cases hq : i / 8 = j / 8
    · have hb : m.bytes[j / 8]? = some m.bytes[i / 8] := by simp [← hq, hsz]
      have ht := testBit_flipIn m.bytes[i / 8] (j % 8) (Nat.mod_lt i (by decide))
      rw [if_pos hq, hb]
      simp only [Option.map_some, Option.getD_some, ht]
      by_cases hij : i = j
      · subst hij
        have : m.bytes[i / 8].toNat.testBit (i % 8) = true := by
          simpa [get, hsz] using hg
        simp [this]
      · simp [hij, show ¬ i % 8 = j % 8 by omega]
    · rw [if_neg hq, decide_eq_false (by omega)]; simp
  · rw [if_neg hg]
    by_cases hij : i = j
    · subst hij; simp [hg]
    · simp [hij]

theorem get_clearBytes (m : Bitmap) (n i : Nat) :
    (m.clearBytes n).get i = (m.get i && decide (8 * n ≤ i)) := by
  have hi := Nat.div_add_mod i 8
  simp only [get, clearBytes, Array.getElem?_mapIdx]
  cases h : m.bytes[i / 8]? with
  | none => simp
  | some b =>
    by_cases hn : i / 8 < n
    · rw [decide_eq_false (by omega)]; simp [hn]
    · rw [decide_eq_true (by omega)]; simp [hn]

end Bitmap

end KernelCore
