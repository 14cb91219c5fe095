import KernelCore.Memory.Extent
import Mathlib

/-!
# Geometry of extents

An extent that would reach past the 64-bit numbers ends at the last of them, which is far above every
physical address: for addresses, and so for bases, it is as if the extent had all of its length. So
extents that have an address overlap exactly where they share one, and the base that lies further up
is then such an address; where they do not overlap, no byte of one is a byte of the other. The whole
frames of an extent lie in it one after the other.
-/

namespace KernelCore

namespace Extent

/-- Addresses of the bytes of an extent. -/
def bytes (r : Extent) : Set ℕ := Set.Ico r.base.val (r.base.val + r.length.toNat)

variable {r s : Extent} {p : PhysAddr} {i j : ℕ}

theorem contains_iff_mem_bytes : r.contains p = true ↔ p.val ∈ r.bytes := by
  rw [contains_iff, lt_stop_iff, bytes, Set.mem_Ico]

theorem disjoint_bytes (h : r.overlaps s = false) : Disjoint r.bytes s.bytes := by
  rw [← Bool.not_eq_true, overlaps_iff_lt] at h
  rw [bytes, bytes, Set.Ico_disjoint_Ico]
  omega

/-- Extents that overlap have a byte in common, unless one has none. -/
theorem overlaps_eq_false (h : Disjoint r.bytes s.bytes) (hr : 0 < r.length.toNat)
    (hs : 0 < s.length.toNat) : r.overlaps s = false := by
  rw [bytes, bytes, Set.Ico_disjoint_Ico] at h
  rw [← Bool.not_eq_true, overlaps_iff_lt]
  omega

theorem contains_base (h : r.length ≠ 0) : r.contains r.base = true := by
  have hpos : 0 < r.length.toNat := Nat.pos_of_ne_zero fun hzero => h (UInt64.toNat_inj.mp hzero)
  rw [contains_iff, lt_stop_iff]
  omega

theorem contains_base_of_overlaps (h : r.overlaps s = true) (hle : r.base.val ≤ s.base.val) :
    r.contains s.base = true :=
  contains_iff.mpr ⟨hle, (overlaps_iff.mp h).2⟩

theorem overlaps_of_contains (hr : r.contains p = true) (hs : s.contains p = true) :
    r.overlaps s = true := by
  obtain ⟨hrbase, hrstop⟩ := contains_iff.mp hr
  obtain ⟨hsbase, hsstop⟩ := contains_iff.mp hs
  exact overlaps_iff.mpr ⟨hrbase.trans_lt hsstop, hsbase.trans_lt hrstop⟩

theorem overlaps_iff_exists_contains (hr : r.length ≠ 0) (hs : s.length ≠ 0) :
    r.overlaps s = true ↔ ∃ p, r.contains p = true ∧ s.contains p = true := by
  constructor
  · intro hoverlap
    cases Nat.le_total r.base.val s.base.val with
    | inl hle => exact ⟨s.base, contains_base_of_overlaps hoverlap hle, contains_base hs⟩
    | inr hge =>
      rw [overlaps_comm] at hoverlap
      exact ⟨r.base, contains_base hr, contains_base_of_overlaps hoverlap hge⟩
  · rintro ⟨p, hpr, hps⟩
    exact overlaps_of_contains hpr hps

/-- The 4096 numbers of the frame of an index, which are addresses as long as they are small enough. -/
def frame (r : Extent) (i : ℕ) : Set ℕ :=
  Set.Ico (r.base.val + i * 4096) (r.base.val + i * 4096 + 4096)

/-- Whole frames of an extent are part of it. -/
theorem frame_subset_bytes (r : Extent) (hi : i < r.frameCount) : r.frame i ⊆ r.bytes := by
  have hwhole : r.frameCount * 4096 ≤ r.length.toNat := Nat.div_mul_le_self _ _
  exact Set.Ico_subset_Ico (by omega) (by omega)

theorem disjoint_frame (hij : i ≠ j) : Disjoint (r.frame i) (r.frame j) := by
  rw [frame, frame, Set.Ico_disjoint_Ico]
  omega

theorem exists_contains_of_mem_frame (hi : i < r.frameCount)
    (hend : r.base.val + (i + 1) * 4096 ≤ 0x10000000000000) {n : ℕ} (hn : n ∈ r.frame i) :
    ∃ p : PhysAddr, p.val = n ∧ r.contains p = true := by
  have hlt : n < 0x10000000000000 := by
    have hstop := hn.2
    omega
  exact ⟨⟨n, hlt⟩, rfl, contains_iff_mem_bytes.mpr (frame_subset_bytes r hi hn)⟩

/-- Extents behave like sets of addresses, wherever they lie and also where they would end past the
64-bit numbers. Two that are not empty overlap in either order alike, and exactly if an address is in
both. A whole frame of an extent that ends within the physical addresses is made of addresses that
are all in the extent, and it has none in common with any other frame. -/
theorem extents_are_sets_of_addresses :
    (∀ r s : Extent, r.length ≠ 0 → s.length ≠ 0 →
      r.overlaps s = s.overlaps r ∧
        (r.overlaps s = true ↔ ∃ p, r.contains p = true ∧ s.contains p = true)) ∧
    ∀ (r : Extent) (i : ℕ), i < r.frameCount →
      r.base.val + (i + 1) * 4096 ≤ 0x10000000000000 →
      (∀ n ∈ r.frame i, ∃ p : PhysAddr, p.val = n ∧ r.contains p = true) ∧
        ∀ j, i ≠ j → Disjoint (r.frame i) (r.frame j) :=
  ⟨fun r s hr hs => ⟨overlaps_comm r s, overlaps_iff_exists_contains hr hs⟩,
    fun _ _ hi hend => ⟨fun _ hn => exists_contains_of_mem_frame hi hend hn,
      fun _ hij => disjoint_frame hij⟩⟩

/-- An extent that would end past the 64-bit numbers overlaps the last bytes of physical memory, and
not the frame that it comes after; its last frame of addresses ends with the last address. -/
theorem extents_are_sets_of_addresses_past_numbers :
    (∃ p, contains ⟨⟨0x1000, by decide⟩, 0xffffffffffffffff⟩ p = true ∧
      contains ⟨⟨0xffffffffff800, by decide⟩, 0x800⟩ p = true) ∧
    (¬ ∃ p, contains ⟨⟨0x1000, by decide⟩, 0xffffffffffffffff⟩ p = true ∧
      contains ⟨⟨0, by decide⟩, 0x1000⟩ p = true) ∧
    (∃ p : PhysAddr, p.val = 0xfffffffffffff ∧
      contains ⟨⟨0x1000, by decide⟩, 0xffffffffffffffff⟩ p = true) ∧
    Disjoint (frame ⟨⟨0x1000, by decide⟩, 0xffffffffffffffff⟩ 0xfffffffffe)
      (frame ⟨⟨0x1000, by decide⟩, 0xffffffffffffffff⟩ 0) := by
  obtain ⟨hpairs, hframes⟩ := extents_are_sets_of_addresses
  obtain ⟨-, hlast⟩ := hpairs ⟨⟨0x1000, by decide⟩, 0xffffffffffffffff⟩
    ⟨⟨0xffffffffff800, by decide⟩, 0x800⟩ (by decide) (by decide)
  obtain ⟨-, hbefore⟩ := hpairs ⟨⟨0x1000, by decide⟩, 0xffffffffffffffff⟩
    ⟨⟨0, by decide⟩, 0x1000⟩ (by decide) (by decide)
  obtain ⟨hcontained, hapart⟩ := hframes ⟨⟨0x1000, by decide⟩, 0xffffffffffffffff⟩ 0xfffffffffe
    (by decide) (by decide)
  refine ⟨hlast.mp (by decide), hbefore.not.mp (by decide), hcontained _ ?_, hapart 0 (by decide)⟩
  rw [frame, Set.mem_Ico]
  decide

end Extent

end KernelCore
