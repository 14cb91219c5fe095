import KernelCore.Proofs.Memory.Aliases

/-!
# The direct map both ways

Below the offset a physical address is shifted up by the offset and back down by it. The sum is
checked for overflow, but then bit 47 is copied upwards without a check, so that what comes out is
the sum only where that is a virtual address. In the higher half it always is: from there to the end
of the 64-bit numbers every number is one.
-/

namespace KernelCore

/-- The number has 64 bits, of which the upper 17 agree. -/
def Canonical (n : ℕ) : Prop := n < 2 ^ 47 ∨ 2 ^ 64 - 2 ^ 47 ≤ n ∧ n < 2 ^ 64

theorem exists_virtAddr {n : ℕ} (h : Canonical n) : ∃ v : VirtAddr, v.val = n := by
  rw [Canonical] at h
  exact ⟨⟨n, by omega⟩, rfl⟩

namespace DirectMap

/-- The physical address lies below the offset, and has a virtual address at the offset. -/
structure Admits (map : DirectMap) (p : PhysAddr) : Prop where
  below : p.val < map.offset.toNat
  canonical : Canonical (map.offset.toNat + p.val)

variable {map : DirectMap} {p q : PhysAddr} {v : VirtAddr}

theorem toPhys?_of_offset_le (h : v.val = map.offset.toNat + p.val) : map.toPhys? v = some p := by
  have hlt := p.lt
  rw [toPhys?, if_neg (by omega), PhysAddr.ofNat?, dif_pos (by omega)]
  simp only [h, Nat.add_sub_cancel_left]

/-- An address that the map admits is shifted by the offset, and back again. -/
theorem Admits.exists_toVirt (h : map.Admits p) :
    ∃ v, map.toVirt p = .ok v ∧ v.val = map.offset.toNat + p.val ∧ map.toPhys? v = some p := by
  obtain ⟨v, hv⟩ := exists_virtAddr h.canonical
  exact ⟨v, toVirt_of_below h.below hv, hv, toPhys?_of_offset_le hv⟩

theorem Admits.eq_of_toVirt_eq (hp : map.Admits p) (hq : map.Admits q)
    (hsame : map.toVirt p = map.toVirt q) : p = q := by
  obtain ⟨v, hv, -, hback⟩ := hp.exists_toVirt
  obtain ⟨w, hw, -, hback'⟩ := hq.exists_toVirt
  obtain rfl : v = w := Except.ok.inj (hv.symm.trans (hsame.trans hw))
  exact Option.some.inj (hback.symm.trans hback')

/-- What lies at the offset or above it comes from the physical address that is left over, if that
is one and below the offset. -/
theorem exists_toPhys? (hle : map.offset.toNat ≤ v.val)
    (hbelow : v.val - map.offset.toNat < map.offset.toNat)
    (hphysical : v.val - map.offset.toNat < 2 ^ 52) :
    ∃ p, map.toPhys? v = some p ∧ map.toVirt p = .ok v := by
  let p : PhysAddr := ⟨v.val - map.offset.toNat, hphysical⟩
  have hv : v.val = map.offset.toNat + p.val := by simp only [p]; omega
  exact ⟨p, toPhys?_of_offset_le hv, toVirt_of_below hbelow hv⟩

/-- Every 64-bit number from the higher half on is a virtual address. -/
theorem admits_of_higherHalf (hoffset : 2 ^ 64 - 2 ^ 47 ≤ map.offset.toNat)
    (hsum : map.offset.toNat + p.val < 2 ^ 64) : map.Admits p := by
  have hlt := p.lt
  exact ⟨by omega, .inr ⟨by omega, hsum⟩⟩

/-- Only the sum stops the kernel, and only where it has more than 64 bits. -/
theorem toVirt_eq_error_iff (hbelow : p.val < map.offset.toNat) :
    (∃ stop, map.toVirt p = .error stop) ↔ 2 ^ 64 ≤ map.offset.toNat + p.val := by
  rw [toVirt, if_neg (by omega), addWithin, UInt64.size]
  split
  · exact iff_of_false (by simp) (by omega)
  · exact iff_of_true ⟨.addOverflow, rfl⟩ (by omega)

/-- The direct map can be inverted and has no two addresses for one place. Whatever the offset, a
physical address below it that has a virtual address at the offset is translated to that one and
back again, so that no two of them meet; and a virtual address that lies at the offset or less than
the offset above it is what its physical address is translated to. With an offset in the higher half
the kernel stops exactly where the sum has more than 64 bits, and the map admits every other physical
address: the bits above bit 47 are never changed by being copied. -/
theorem translation_is_invertible (map : DirectMap) :
    (∀ p, map.Admits p →
      ∃ v, map.toVirt p = .ok v ∧ v.val = map.offset.toNat + p.val ∧ map.toPhys? v = some p) ∧
    (∀ p q, map.Admits p → map.Admits q → map.toVirt p = map.toVirt q → p = q) ∧
    (∀ v : VirtAddr, map.offset.toNat ≤ v.val → v.val - map.offset.toNat < map.offset.toNat →
      v.val - map.offset.toNat < 2 ^ 52 → ∃ p, map.toPhys? v = some p ∧ map.toVirt p = .ok v) ∧
    (0xffff800000000000 ≤ map.offset.toNat → ∀ p,
      ((∃ stop, map.toVirt p = .error stop) ↔ 2 ^ 64 ≤ map.offset.toNat + p.val) ∧
      (map.offset.toNat + p.val < 2 ^ 64 → map.Admits p)) := by
  refine ⟨fun p hp => hp.exists_toVirt, fun p q hp hq => hp.eq_of_toVirt_eq hq,
    fun v => exists_toPhys?, fun hoffset p => ⟨?_, fun hsum => ?_⟩⟩
  · have hlt := p.lt
    exact toVirt_eq_error_iff (by omega)
  · exact admits_of_higherHalf (by omega) hsum

/-- At the offset 2^64 - 2^47 of a higher half, and at one that leaves a single page below 2^64. -/
theorem translation_is_invertible_in_higher_half :
    (∃ v, (⟨0xffff800000000000⟩ : DirectMap).toVirt ⟨0x12345000, by decide⟩ = .ok v ∧
      v.val = 0xffff800012345000 ∧
      (⟨0xffff800000000000⟩ : DirectMap).toPhys? v = some ⟨0x12345000, by decide⟩) ∧
    (∃ stop, (⟨0xfffffffffffff000⟩ : DirectMap).toVirt ⟨0x1000, by decide⟩ = .error stop) ∧
    ∃ v, (⟨0xfffffffffffff000⟩ : DirectMap).toVirt ⟨0xfff, by decide⟩ = .ok v ∧
      v.val = 0xffffffffffffffff := by
  obtain ⟨hback, -, -, hhigh⟩ := translation_is_invertible ⟨0xffff800000000000⟩
  obtain ⟨hback', -, -, hhigh'⟩ := translation_is_invertible ⟨0xfffffffffffff000⟩
  refine ⟨?_, ?_, ?_⟩
  · exact hback _ ((hhigh (by decide) _).2 (by decide))
  · exact (hhigh' (by decide) _).1.mpr (by decide)
  · obtain ⟨v, hv, hval, -⟩ := hback' ⟨0xfff, by decide⟩ ((hhigh' (by decide) _).2 (by decide))
    exact ⟨v, hv, hval⟩

end DirectMap

end KernelCore
