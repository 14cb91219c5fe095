import KernelCore.Machine.Demo
import KernelCore.Proofs.Frames.FirstFit
import KernelCore.Proofs.Memory.Aliases
import KernelCore.Proofs.Memory.Setup
import KernelCore.Proofs.Memory.Words

/-!
# Stacks from the frame pool

Each worker takes the first free run of four frames for its stack. While nobody gives a frame back,
the stacks follow each other from the start of the pool, and the allocator is known by their number:
the next stack is where they end, if the pool goes on for so long. The allocator's books lie in the
bitmap, away from the pool.
-/

namespace KernelCore

open Kernel

namespace Machine

/-- The extent is memory below the offset, at which the kernel reaches it. -/
structure Exposes (m : Machine) (offset : UInt64) (r : Extent) : Prop where
  below : r.base.val + r.length.toNat ≤ offset.toNat
  present : ∀ x ∈ r.bytes, ∃ (p : PhysAddr) (v : VirtAddr), p.val = x ∧
    v.val = offset.toNat + x ∧ m.ram.covers v.val 1 = true
  stop_lt : offset.toNat + (r.base.val + r.length.toNat) < UInt64.size

variable {m : Machine} {offset : UInt64} {r : Extent}

theorem Exposes.toVirt (h : m.Exposes offset r) {p : PhysAddr} (hp : p.val ∈ r.bytes) :
    ∃ v, (⟨offset⟩ : DirectMap).toVirt p = .ok v ∧ v.val = offset.toNat + p.val := by
  obtain ⟨-, v, -, hv, -⟩ := h.present p.val hp
  have hbelow : p.val < offset.toNat := lt_of_lt_of_le hp.2 h.below
  exact ⟨v, DirectMap.toVirt_of_below hbelow hv, hv⟩

/-- A stretch of the extent is memory that is there. -/
theorem Exposes.covers (h : m.Exposes offset r) {x n : ℕ} (hn : 0 < n)
    (hin : Set.Ico x (x + n) ⊆ r.bytes) : m.ram.covers (offset.toNat + x) n = true := by
  obtain ⟨-, v, -, hv, hfirst⟩ := h.present x (hin ⟨le_rfl, by omega⟩)
  obtain ⟨-, w, -, hw, hlast⟩ := h.present (x + (n - 1)) (hin ⟨by omega, by omega⟩)
  rw [Span.covers_iff] at hfirst hlast ⊢
  omega

/-- The extent ends within the physical addresses. -/
theorem Exposes.stop_le (h : m.Exposes offset r) (hlength : 0 < r.length.toNat) :
    r.base.val + r.length.toNat ≤ 0x10000000000000 := by
  obtain ⟨p, -, hp, -, -⟩ :=
    h.present (r.base.val + (r.length.toNat - 1)) ⟨by omega, by omega⟩
  have hlt := p.lt
  omega

end Machine

namespace Demo

open FrameAllocator Machine

/-! ## Stacks -/

/-- Lowest address of a worker's stack. -/
def stackBase (offset : UInt64) (pool : Extent) (id : ℕ) : ℕ :=
  offset.toNat + pool.base.val + id * stackSize

/-- One past the highest address that a worker's stack uses. -/
def stackTop (offset : UInt64) (pool : Extent) (id : ℕ) : ℕ :=
  (stackBase offset pool id + stackSize) / 16 * 16

/-- Addresses of the bytes of a worker's sentinel. -/
def sentinelBytes (offset : UInt64) (pool : Extent) (id : ℕ) : Set ℕ :=
  Set.Ico (stackTop offset pool id - 8) (stackTop offset pool id)

/-- Addresses of the bytes of the bitmap. -/
def bitmapBytes (offset : UInt64) (pool : FramePool) : Set ℕ :=
  Set.Ico (offset.toNat + pool.bitmap.base.val)
    (offset.toNat + pool.bitmap.base.val + bitmapSize pool.frames.frameCount)

variable {offset : UInt64} {pool : FramePool} {m k : Machine} {n : ℕ}

/-- The rounded stack keeps all but the last bytes of its frames. -/
theorem stackTop_bounds (offset : UInt64) (pool : Extent) (id : ℕ) :
    stackBase offset pool id + 24 ≤ stackTop offset pool id ∧
      stackTop offset pool id ≤ stackBase offset pool id + stackSize := by
  rw [stackTop, stackSize]
  omega

/-- The stack of a worker that there is room for lies in the pool. -/
theorem stack_le (offset : UInt64) {pool : Extent} {id : ℕ}
    (hroom : 4 * (id + 1) ≤ pool.frameCount) :
    stackBase offset pool id + stackSize ≤
      offset.toNat + (pool.base.val + pool.length.toNat) := by
  have hwhole : pool.frameCount * 4096 ≤ pool.length.toNat := Nat.div_mul_le_self _ _
  rw [stackBase, stackSize]
  omega

/-- The sentinel of a worker that there is room for is in the pool. -/
theorem exists_sentinel (offset : UInt64) {pool : Extent} {id : ℕ}
    (hroom : 4 * (id + 1) ≤ pool.frameCount) : ∃ x,
      stackTop offset pool id - 8 = offset.toNat + x ∧ Set.Ico x (x + 8) ⊆ pool.bytes := by
  obtain ⟨hlow, hhigh⟩ := stackTop_bounds offset pool id
  have hend := stack_le offset hroom
  rw [stackBase] at hlow
  refine ⟨stackTop offset pool id - 8 - offset.toNat, by omega, ?_⟩
  exact Set.Ico_subset_Ico (by omega) (by omega)

theorem sentinel_notMem_bitmap {id c : ℕ}
    (hapart : ∀ x ∈ pool.frames.bytes, offset.toNat + x ∉ bitmapBytes offset pool)
    (hroom : 4 * (id + 1) ≤ pool.frames.frameCount)
    (hc : c ∈ sentinelBytes offset pool.frames id) : c ∉ bitmapBytes offset pool := by
  obtain ⟨x, hx, hsentinel⟩ := exists_sentinel offset hroom
  rw [sentinelBytes, Set.mem_Ico] at hc
  obtain ⟨d, rfl⟩ : ∃ d, c = offset.toNat + (x + d) := ⟨c - offset.toNat - x, by omega⟩
  exact hapart _ (hsentinel ⟨by omega, by omega⟩)

/-! ## Frames for the stacks -/

/-- The frames for the first `n` stacks are handed out, and no others. -/
structure Filled (pool : Extent) (n : ℕ) (a : FrameAllocator) : Prop where
  region : a.region = pool
  free : a.free + 4 * n = a.total
  taken : ∀ i, a.isTaken i = true ↔ i < 4 * n

theorem Filled.total_eq {region : Extent} {a : FrameAllocator} (h : Filled region n a) :
    a.total = region.frameCount := by
  rw [total, h.region]

/-- A free stack begins where the frames end that are handed out, and none begins before. -/
theorem Filled.isLeast {region : Extent} {a : FrameAllocator} (h : Filled region n a)
    (hroom : 4 * (n + 1) ≤ region.frameCount) : IsLeast {s | a.FreeRun 4 s} (4 * n) := by
  have htotal := h.total_eq
  refine ⟨⟨by omega, fun i _ => ?_⟩, fun s hs => ?_⟩
  · rw [← Bool.not_eq_true, h.taken]
    omega
  · have hfree := hs.2 0 (by decide)
    rw [← Bool.not_eq_true, h.taken] at hfree
    omega

/-- A worker that there is room for gets the frames after those of the workers before it. -/
theorem Filled.allocate_eq_ok {region : Extent} {a : FrameAllocator} (h : Filled region n a)
    (hsound : Sound a) (hroom : 4 * (n + 1) ≤ region.frameCount) : ∃ p,
      allocate stackSize a = .ok (.ok p) (a.takeRun (4 * n) 4) ∧
      p.val = region.base.val + n * stackSize ∧ Filled region (n + 1) (a.takeRun (4 * n) 4) := by
  have htotal := h.total_eq
  have hleast := h.isLeast hroom
  obtain ⟨p, hp, -⟩ := addressOf_eq_ok hsound (i := 4 * n) (by omega)
  refine ⟨p, (allocate_eq_ok_iff hsound).mpr ⟨by decide, 4 * n, hleast, hp, rfl⟩, ?_, ?_, ?_, ?_⟩
  · rw [hp, startOf, h.region, stackSize]
    omega
  · rw [region_takeRun, h.region]
  · have hcount := hleast.1.free_takeRun hsound.counted
    have hfree := h.free
    rw [total_takeRun]
    omega
  · intro i
    rw [hleast.1.isTaken_takeRun_iff, h.taken]
    omega

/-- A worker that there is no room for gets nothing. -/
theorem Filled.allocate_eq_error {region : Extent} {a : FrameAllocator} (h : Filled region n a)
    (hsound : Sound a) (hfull : region.frameCount < 4 * (n + 1)) :
    allocate stackSize a = .ok (.error .outOfFrames) a := by
  have htotal := h.total_eq
  have hnone : ∀ start, ¬ a.FreeRun 4 start := by
    intro start hrun
    have hend := hrun.1
    have hfirst := hrun.2 0 (by decide)
    rw [← Bool.not_eq_true, h.taken] at hfirst
    omega
  rw [allocate_eq_error_iff, reserveRun_eq_error_iff hsound.counted]
  exact ⟨.inr ⟨by decide, rfl, hnone⟩, rfl⟩

/-- The kernel's allocator has handed out the frames for the first `n` stacks, and keeps its books
where the bitmap is reached. -/
def Allotted (k : Machine) (offset : UInt64) (pool : FramePool) (n : ℕ) : Prop :=
  ∃ r a, Lends k r a ∧ r.storage.val = offset.toNat + pool.bitmap.base.val ∧
    Filled pool.frames n a

theorem size_of_lends {r : ResidentAllocator} {a : FrameAllocator} (h : Lends k r a)
    (hregion : a.region = pool.frames) : r.size = bitmapSize pool.frames.frameCount := by
  rw [ResidentAllocator.size, ← hregion, ← h.load]
  rfl

/-- The answer to a request changes the bytes of the bitmap at most. -/
theorem exists_allotted {r : ResidentAllocator} {a b : FrameAllocator} {l : ℕ} (h : Lends k r a)
    (hstorage : r.storage.val = offset.toNat + pool.bitmap.base.val)
    (hplace : SamePlace a b) (hsound : Sound b) (hfilled : Filled pool.frames l b) :
    ∃ frames memory, k.storing r b = { k with frames, memory } ∧
      Allotted { k with frames, memory } offset pool l ∧
      Memory.AgreeOutside (bitmapBytes offset pool) k.memory memory := by
  refine ⟨_, _, rfl, ⟨_, b, h.storing hplace hsound, hstorage, hfilled⟩, fun c hc => ?_⟩
  have hsize := size_of_lends h (hplace.region.symm.trans hfilled.region)
  rw [bitmapBytes, ← hstorage, ← hsize, Set.mem_Ico] at hc
  exact h.byte_storing hplace (by omega)

theorem Allotted.grant (h : Allotted k offset pool n)
    (hroom : 4 * (n + 1) ≤ pool.frames.frameCount) : ∃ p frames memory,
      allocateRun stackSize k = .ok (.ok p) { k with frames, memory } ∧
      p.val = pool.frames.base.val + n * stackSize ∧
      Allotted { k with frames, memory } offset pool (n + 1) ∧
      Memory.AgreeOutside (bitmapBytes offset pool) k.memory memory := by
  obtain ⟨r, a, hlends, hstorage, hfilled⟩ := h
  obtain ⟨p, hgrant, hp, hfilled'⟩ := hfilled.allocate_eq_ok hlends.sound hroom
  obtain ⟨frames, memory, hstored, hallotted, hagree⟩ := exists_allotted hlends hstorage
    (samePlace_takeRun a (4 * n) 4) (hlends.sound.takeRun (4 * n) 4) hfilled'
  exact ⟨p, frames, memory, hstored ▸ allocateRun_eq_ok hlends hgrant, hp, hallotted, hagree⟩

theorem Allotted.refuse (h : Allotted k offset pool n)
    (hfull : pool.frames.frameCount < 4 * (n + 1)) : ∃ frames memory,
      allocateRun stackSize k = .ok (.error .outOfFrames) { k with frames, memory } ∧
      Allotted { k with frames, memory } offset pool n ∧
      Memory.AgreeOutside (bitmapBytes offset pool) k.memory memory := by
  obtain ⟨r, a, hlends, hstorage, hfilled⟩ := h
  have hrefuse := hfilled.allocate_eq_error hlends.sound hfull
  obtain ⟨frames, memory, hstored, hallotted, hagree⟩ :=
    exists_allotted hlends hstorage (.refl a) hlends.sound hfilled
  exact ⟨frames, memory, hstored ▸ allocateRun_eq_ok hlends hrefuse, hallotted, hagree⟩

theorem Allotted.le (h : Allotted k offset pool n) : 4 * n ≤ pool.frames.frameCount := by
  obtain ⟨r, a, -, -, hfilled⟩ := h
  have hfree := hfilled.free
  have htotal := hfilled.total_eq
  omega

/-- The allocator is read from the bytes of the bitmap alone. -/
theorem Allotted.congr {k' : Machine} (h : Allotted k offset pool n)
    (hframes : k'.frames = k.frames)
    (hsame : ∀ c ∈ bitmapBytes offset pool, k'.memory.byte c = k.memory.byte c) :
    Allotted k' offset pool n := by
  obtain ⟨r, a, hlends, hstorage, hfilled⟩ := h
  have hsize := size_of_lends hlends hfilled.region
  have hload : r.load k'.memory = a := by
    rw [← hlends.load]
    apply ResidentAllocator.load_congr
    intro c h₁ h₂
    exact hsame c ⟨by omega, by omega⟩
  exact ⟨r, a, ⟨hframes.trans hlends.frames, hload, hlends.sound⟩, hstorage, hfilled⟩

/-- The allocator takes no bitmap that meets the pool. -/
theorem disjoint_of_flaw?_eq_none {size : ℕ}
    (hflaw : flaw? pool.frames pool.bitmap size = none) :
    Disjoint pool.frames.bytes pool.bitmap.bytes :=
  Extent.disjoint_bytes (flaw?_eq_none_iff.mp hflaw).2.2.1

/-- A new allocator keeps its books in the bitmap of the pool, and every frame is free. -/
theorem allotted_of_placed {r : ResidentAllocator} (hframes : m.Exposes offset pool.frames)
    (hbitmap : m.Exposes offset pool.bitmap)
    (hplaced : ResidentAllocator.placed pool.frames pool.bitmap ⟨offset⟩ m.ram m.memory =
      .ok (.ok (r, k.memory))) (hk : k.frames = some r) :
    Allotted k offset pool 0 ∧
      Memory.AgreeOutside (bitmapBytes offset pool) m.memory k.memory ∧
      Disjoint pool.frames.bytes pool.bitmap.bytes ∧
      bitmapSize pool.frames.frameCount ≤ pool.bitmap.length.toNat := by
  obtain ⟨hstorage, hregion, hcleared, -, buffer, hnew⟩ := ResidentAllocator.placed_eq_ok hplaced
  obtain ⟨hflaw, -, -, hfree, htaken⟩ := ofBuffer_eq_ok hnew
  obtain ⟨-, hsome, -, hfits, -⟩ := flaw?_eq_none_iff.mp hflaw
  have hwhole : pool.frames.frameCount * 4096 ≤ pool.frames.length.toNat :=
    Nat.div_mul_le_self _ _
  have hbytes : 0 < pool.bitmap.length.toNat := by
    rw [bitmapSize] at hfits
    omega
  obtain ⟨v, hv, hval⟩ := hbitmap.toVirt (p := pool.bitmap.base) ⟨le_rfl, by omega⟩
  obtain rfl : r.storage = v := Except.ok.inj (hstorage.symm.trans hv)
  obtain ⟨hlends, -⟩ := lends_of_placed (hframes.stop_le (by omega)) hplaced hk
  have hnone : ∀ i, (r.load k.memory).isTaken i = true ↔ i < 4 * 0 := by
    intro i
    rw [htaken i]
    simp
  have htotal : (r.load k.memory).total = pool.frames.frameCount := by
    rw [← hregion]
    rfl
  refine ⟨⟨r, _, hlends, hval, hregion, ?_, hnone⟩, fun c hc => ?_,
    disjoint_of_flaw?_eq_none hflaw, hfits⟩
  · rw [hfree, htotal, Nat.mul_zero, Nat.add_zero]
  · rw [bitmapBytes, ← hval, ← size_of_lends hlends hregion, Set.mem_Ico] at hc
    rw [hcleared, Memory.byte_clear, if_neg hc]

end Demo

end KernelCore
