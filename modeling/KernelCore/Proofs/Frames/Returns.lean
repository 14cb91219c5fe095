import KernelCore.Proofs.Frames.FirstFit

/-!
# Giving frames back

Books in order leave nothing open: which frames are taken decides every bit and the free count. So
two ways to spend and give back frames end in the same allocator, byte for byte, as soon as they
leave the same frames taken. Giving back is subtraction on the frames that are taken, which makes
its order and its repetitions immaterial and undoes an allocation.
-/

namespace KernelCore

namespace Bitmap

theorem byte_ext {b c : UInt8} (h : ∀ k < 8, b.toNat.testBit k = c.toNat.testBit k) : b = c := by
  apply UInt8.toNat_inj.mp
  apply Nat.eq_of_testBit_eq
  intro k
  by_cases hk : k < 8
  · exact h k hk
  · have hpow : 2 ^ 8 ≤ 2 ^ k := Nat.pow_le_pow_right (by decide) (by omega)
    rw [Nat.testBit_lt_two_pow (b.toNat_lt.trans_le hpow),
      Nat.testBit_lt_two_pow (c.toNat_lt.trans_le hpow)]

/-- A byte of a bitmap is known by its eight bits. -/
theorem getElem?_eq_of_get {m k : Bitmap} {j : ℕ} (hm : j < m.bytes.size) (hk : j < k.bytes.size)
    (h : ∀ i, i / 8 = j → m.get i = k.get i) : m.bytes[j]? = k.bytes[j]? := by
  have hbyte : m.bytes[j] = k.bytes[j] := by
    apply byte_ext
    intro b hb
    have hbit := h (8 * j + b) (by omega)
    simpa [get, show (8 * j + b) / 8 = j by omega, show (8 * j + b) % 8 = b by omega, hm, hk]
      using hbit
  simp [hm, hk, hbyte]

end Bitmap

namespace FrameAllocator

variable {a b : FrameAllocator} {pool place : Extent} {buffer : Bitmap}

/-- Books over the same memory differ in the frames that are taken, or not at all. -/
theorem Booked.ext_isTaken (ha : Booked pool place buffer a) (hb : Booked pool place buffer b)
    (h : ∀ i, a.isTaken i = true ↔ b.isTaken i = true) : a = b := by
  have htaken : a.isTaken = b.isTaken := funext fun i => Bool.eq_iff_iff.mpr (h i)
  have htotal : b.total = a.total := hb.total.trans ha.total.symm
  have hfree : a.free = b.free := by
    rw [ha.free_eq, hb.free_eq, vacancies, vacancies, htotal, htaken]
  have hbits : ∀ i < 8 * bitmapSize a.total, a.bitmap.get i = b.bitmap.get i := by
    intro i hi
    by_cases hpool : i < a.total
    · have hsame := congrFun htaken i
      rwa [isTaken, isTaken, htotal, decide_eq_true hpool, Bool.true_and, Bool.true_and] at hsame
    · rw [ha.padding i (by omega) hi, hb.padding i (by omega) (by rwa [htotal])]
  have hbytes : ∀ j : ℕ, a.bitmap.bytes[j]? = b.bitmap.bytes[j]? := by
    intro j
    by_cases hj : j < bitmapSize a.total
    · have hroomA : a.total ≤ 8 * a.bitmap.bytes.size := a.fits
      have hroomB : b.total ≤ 8 * b.bitmap.bytes.size := b.fits
      rw [bitmapSize] at hj hbits
      exact Bitmap.getElem?_eq_of_get (by omega) (by omega) fun i hi => hbits i (by omega)
    · rw [ha.beyond j (by omega), hb.beyond j (by rw [htotal]; omega)]
  have hbitmap : a.bitmap = b.bitmap := by
    rw [Bitmap.mk.injEq]
    exact Array.ext_getElem? hbytes
  have hregion : a.region = b.region := ha.region.trans hb.region.symm
  have hplace : a.bitmapRegion = b.bitmapRegion := ha.bitmapRegion.trans hb.bitmapRegion.symm
  cases a
  cases b
  rw [mk.injEq]
  exact ⟨hregion, hplace, hbitmap, hfree⟩

theorem Booked.deallocate (h : Booked pool place buffer a) (p : PhysAddr) :
    Booked pool place buffer (a.deallocate p) := h.leftAll [.free p]

/-- Takes back the frames of several addresses, one after the other. -/
def deallocateAll (addresses : List PhysAddr) (a : FrameAllocator) : FrameAllocator :=
  addresses.foldl deallocate a

theorem Booked.deallocateAll (h : Booked pool place buffer a) (addresses : List PhysAddr) :
    Booked pool place buffer (deallocateAll addresses a) := by
  induction addresses generalizing a with
  | nil => exact h
  | cons p rest ih => exact ih (h.deallocate p)

/-- What is given back is taken no more, whatever its order. -/
theorem isTaken_deallocateAll_iff (haligned : a.region.base.val % 4096 = 0)
    (addresses : List PhysAddr) (j : ℕ) :
    (deallocateAll addresses a).isTaken j = true ↔
      a.isTaken j = true ∧ ∀ p ∈ addresses, p.val ≠ a.startOf j := by
  induction addresses generalizing a with
  | nil => simp [FrameAllocator.deallocateAll]
  | cons p rest ih =>
    have hrest := ih (a := a.deallocate p) (by rwa [region_deallocate])
    rw [startOf, region_deallocate, ← startOf, isTaken_deallocate_iff haligned] at hrest
    simp only [FrameAllocator.deallocateAll, List.foldl_cons, List.forall_mem_cons] at hrest ⊢
    rw [hrest, and_assoc]

/-- Neither the order in which addresses are given back counts, nor how often each one is. -/
theorem Booked.deallocateAll_congr (h : Booked pool place buffer a)
    (haligned : a.region.base.val % 4096 = 0) {xs ys : List PhysAddr}
    (hsame : ∀ p, p ∈ xs ↔ p ∈ ys) :
    FrameAllocator.deallocateAll xs a = FrameAllocator.deallocateAll ys a := by
  apply (h.deallocateAll xs).ext_isTaken (h.deallocateAll ys)
  intro j
  simp only [isTaken_deallocateAll_iff haligned, hsame]

/-- The address of no whole frame of the pool. -/
def Foreign (pool : Extent) (p : PhysAddr) : Prop :=
  p.val % 4096 ≠ 0 ∨ p.val < pool.base.val ∨ pool.base.val + pool.frameCount * 4096 ≤ p.val

theorem Foreign.ne_startOf {p : PhysAddr} (h : Foreign a.region p)
    (haligned : a.region.base.val % 4096 = 0) {i : ℕ} (hi : i < a.total) :
    p.val ≠ a.startOf i := by
  have htotal : a.region.frameCount = a.total := rfl
  rw [Foreign, htotal] at h
  rw [startOf]
  omega

/-- The frames of a run that was free are free again once they are given back, and no other frame
changes. -/
theorem isTaken_deallocateAll_takeRun (haligned : a.region.base.val % 4096 = 0)
    {count start : ℕ} (hrun : a.FreeRun count start) {addresses : List PhysAddr}
    (hall : ∀ i < count, ∃ p ∈ addresses, p.val = a.startOf (start + i))
    (honly : ∀ p ∈ addresses, (∃ i < count, p.val = a.startOf (start + i)) ∨ Foreign a.region p)
    (j : ℕ) :
    (deallocateAll addresses (a.takeRun start count)).isTaken j = true ↔ a.isTaken j = true := by
  rw [isTaken_deallocateAll_iff (by rwa [region_takeRun]), hrun.isTaken_takeRun_iff, startOf,
    region_takeRun, ← startOf]
  constructor
  · rintro ⟨hj | ⟨h₁, h₂⟩, hkept⟩
    · exact hj
    · obtain ⟨i, rfl⟩ := Nat.exists_eq_add_of_le h₁
      obtain ⟨p, hp, hstart⟩ := hall i (by omega)
      exact absurd hstart (hkept p hp)
  · intro hj
    refine ⟨.inl hj, fun p hp hstart => ?_⟩
    rcases honly p hp with ⟨i, hi, hinside⟩ | hforeign
    · have hsame := startOf_injective a (hstart.symm.trans hinside)
      rw [hsame, hrun.2 i hi] at hj
      contradiction
    · exact hforeign.ne_startOf haligned (isTaken_lt hj) hstart

/-- Giving back undoes allocating, in any order. In every state that an allocator reaches, the
frames of a run that is allocated there can be given back one by one, each as often as one likes and
between addresses of no frame of the pool: once each of them was given back, the allocator is what
it was before, every byte of its bitmap included. And whatever two addresses are given back, their
order does not count, nor does it count if one is given back twice. -/
theorem giving_back_undoes_allocating (h : Reachable pool place a) :
    (∀ size p b, allocate size a = .ok (.ok p) b → ∀ addresses : List PhysAddr,
      (∀ i < (size + 4095) / 4096, ∃ q ∈ addresses, q.val = p.val + i * 4096) →
      (∀ q ∈ addresses,
        (∃ i < (size + 4095) / 4096, q.val = p.val + i * 4096) ∨ Foreign pool q) →
      deallocateAll addresses b = a) ∧
    ∀ p q, (a.deallocate p).deallocate q = (a.deallocate q).deallocate p ∧
      (a.deallocate p).deallocate p = a.deallocate p := by
  have haligned := h.aligned
  obtain ⟨buffer, hbooked⟩ := h.booked
  refine ⟨fun size p b hok addresses hall honly => ?_, fun p q => ⟨?_, ?_⟩⟩
  · obtain ⟨start, hr, hp⟩ := allocate_eq_ok hok
    obtain ⟨-, hend, hfree, rfl⟩ := reserveRun_eq_ok hr
    have hrun : a.FreeRun ((size + 4095) / 4096) start := ⟨hend, hfree⟩
    have hstart : ∀ i, p.val + i * 4096 = a.startOf (start + i) := by
      intro i
      rw [hp, startOf, startOf]
      omega
    simp only [hstart] at hall honly
    rw [← hbooked.region] at honly
    have hafter : Booked pool place buffer (a.takeRun start ((size + 4095) / 4096)) :=
      takeRun_induction (fun c i hc => hc.take i) hbooked start _
    exact (hafter.deallocateAll addresses).ext_isTaken hbooked
      (isTaken_deallocateAll_takeRun haligned hrun hall honly)
  · have hswap : ∀ r, r ∈ [p, q] ↔ r ∈ [q, p] := by simp [or_comm]
    exact hbooked.deallocateAll_congr haligned hswap
  · have hrepeat : ∀ r, r ∈ [p, p] ↔ r ∈ [p] := by simp
    exact hbooked.deallocateAll_congr haligned hrepeat

/-- Two of three frames are allocated; they come back out of order and one of them twice, among an
address inside a frame, one below the pool and that of the frame that is cut off at its end. -/
theorem giving_back_undoes_allocating_among_foreign :
    ∃ new, ofBuffer ⟨⟨0x100000, by decide⟩, 0x3800⟩ ⟨⟨0x1000, by decide⟩, 1⟩ ⟨#[0xff]⟩ = .ok new ∧
      allocate 0x1001 (leftAll [.frame] new) =
        .ok (.ok ⟨0x101000, by decide⟩) (leftAll [.frame, .run 0x1001] new) ∧
      deallocateAll [⟨0x102000, by decide⟩, ⟨0x103000, by decide⟩, ⟨0x101008, by decide⟩,
          ⟨0x102000, by decide⟩, ⟨0xff000, by decide⟩, ⟨0x101000, by decide⟩]
        (leftAll [.frame, .run 0x1001] new) = leftAll [.frame] new := by
  obtain ⟨new, hnew, hok⟩ : ∃ new,
      ofBuffer ⟨⟨0x100000, by decide⟩, 0x3800⟩ ⟨⟨0x1000, by decide⟩, 1⟩ ⟨#[0xff]⟩ = .ok new ∧
      allocate 0x1001 (leftAll [.frame] new) =
        .ok (.ok ⟨0x101000, by decide⟩) (leftAll [.frame, .run 0x1001] new) := ⟨_, rfl, rfl⟩
  refine ⟨new, hnew, hok, ?_⟩
  apply (giving_back_undoes_allocating ⟨_, new, _, hnew, rfl⟩).1 _ _ _ hok
  · decide
  · simp only [List.forall_mem_cons, Foreign]
    decide

end FrameAllocator

end KernelCore
