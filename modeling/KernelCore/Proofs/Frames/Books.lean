import KernelCore.Proofs.Frames.Loans

/-!
# The books of an allocator

Every request comes down to marking single frames as taken or as free again. So what the books keep
under one such mark they keep under every run of requests, also where a frame has no physical
address and the kernel stops with it marked. The counter is exact then, bits that belong to no frame
stay clear, and the rest of the buffer is never written.
-/

namespace KernelCore

namespace Bitmap

/-- Marking an index changes no other byte than that of the index. -/
theorem getElem?_set_of_ne (m : Bitmap) {i j : ℕ} (h : i / 8 ≠ j) :
    (m.set i).bytes[j]? = m.bytes[j]? := by
  rw [set, Array.getElem?_modify, if_neg h]

theorem getElem?_clear_of_ne (m : Bitmap) {i j : ℕ} (h : i / 8 ≠ j) :
    (m.clear i).bytes[j]? = m.bytes[j]? := by
  rw [clear]
  split
  · rw [Array.getElem?_modify, if_neg h]
  · rfl

theorem getElem?_clearBytes_of_le (m : Bitmap) {n j : ℕ} (h : n ≤ j) :
    (m.clearBytes n).bytes[j]? = m.bytes[j]? := by
  rw [clearBytes, Array.getElem?_mapIdx]
  cases m.bytes[j]? with
  | none => rfl
  | some b => rw [Option.map_some, if_neg (by omega)]

end Bitmap

namespace FrameAllocator

/-- The books of an allocator over `pool` whose bitmap is at `place`, in what was `buffer`. -/
structure Booked (pool place : Extent) (buffer : Bitmap) (a : FrameAllocator) : Prop where
  region : a.region = pool
  total : a.total = pool.frameCount
  bitmapRegion : a.bitmapRegion = bitmapPart pool place
  length : a.bitmapRegion.length.toNat = bitmapSize a.total
  /-- The free count is the number of clear bits among those of the frames. -/
  counted : a.free = ((Finset.range a.total).filter fun i => a.bitmap.get i = false).card
  /-- The count of used frames does not fall below zero. -/
  used : a.used + a.free = a.total
  /-- Bits of the last byte that belong to no frame are clear. -/
  padding : ∀ i, a.total ≤ i → i < 8 * bitmapSize a.total → a.bitmap.get i = false
  /-- The buffer is as it was past the bytes that the bitmap needs. -/
  beyond : ∀ j, bitmapSize a.total ≤ j → a.bitmap.bytes[j]? = buffer.bytes[j]?

variable {a b : FrameAllocator} {pool place : Extent} {buffer : Bitmap}

/-- Among the bits of the frames, the clear ones are those of the frames that are free. -/
theorem vacancies_eq (a : FrameAllocator) :
    a.vacancies = (Finset.range a.total).filter fun i => a.bitmap.get i = false := by
  apply Finset.filter_congr
  intro i hi
  rw [isTaken, decide_eq_true (Finset.mem_range.mp hi), Bool.true_and]

/-- Books in which the free count is exact also have the right count of used frames. -/
theorem used_add_free (hcounted : a.free = a.vacancies.card) : a.used + a.free = a.total := by
  have hle := Finset.card_filter_le (Finset.range a.total) fun i => a.isTaken i = false
  rw [Finset.card_range] at hle
  have hfree : a.free ≤ a.total := hcounted.le.trans hle
  rw [used]
  omega

/-- A change of the bit of one frame, with the free count exact after it, is all that is done to the
books at a time. -/
theorem Booked.marked (h : Booked pool place buffer a) {i : ℕ} (hi : i < a.total)
    (hregion : b.region = a.region) (hplace : b.bitmapRegion = a.bitmapRegion)
    (hbits : ∀ j, i ≠ j → b.bitmap.get j = a.bitmap.get j)
    (hbytes : ∀ j, i / 8 ≠ j → b.bitmap.bytes[j]? = a.bitmap.bytes[j]?)
    (hcounted : b.free = b.vacancies.card) : Booked pool place buffer b := by
  have htotal : b.total = a.total := by rw [FrameAllocator.total, hregion, FrameAllocator.total]
  constructor
  · rw [hregion, h.region]
  · rw [htotal, h.total]
  · rw [hplace, h.bitmapRegion]
  · rw [hplace, htotal, h.length]
  · rw [hcounted, vacancies_eq]
  · exact used_add_free hcounted
  · intro j h₁ h₂
    rw [htotal] at h₁ h₂
    rw [hbits j (by omega), h.padding j h₁ h₂]
  · intro j hj
    rw [htotal] at hj
    rw [hbytes j (by rw [bitmapSize] at hj; omega), h.beyond j hj]

theorem Booked.free_eq (h : Booked pool place buffer a) : a.free = a.vacancies.card := by
  rw [vacancies_eq, h.counted]

theorem Booked.take (h : Booked pool place buffer a) (i : ℕ) :
    Booked pool place buffer (a.take i) := by
  by_cases hi : i < a.total ∧ a.isTaken i = false
  · have hbitmap : (a.take i).bitmap = a.bitmap.set i := by simp [FrameAllocator.take, hi]
    have hin : i / 8 < a.bitmap.bytes.size := by
      have hfits := a.fits
      have htotal := hi.1
      rw [FrameAllocator.total] at htotal
      omega
    refine h.marked hi.1 (region_take a i) (bitmapRegion_take a i) ?_ ?_ (counted_take h.free_eq i)
    · intro j hij
      rw [hbitmap, Bitmap.get_set _ _ hin, decide_eq_false hij, Bool.or_false]
    · intro j hij
      rw [hbitmap, Bitmap.getElem?_set_of_ne _ hij]
  · rw [take_eq_self hi]
    exact h

theorem Booked.release (h : Booked pool place buffer a) (i : ℕ) :
    Booked pool place buffer (a.release i) := by
  by_cases hi : a.isTaken i = true
  · have hbitmap : (a.release i).bitmap = a.bitmap.clear i := by
      simp [FrameAllocator.release, hi]
    refine h.marked (isTaken_lt hi) (region_release a i) (bitmapRegion_release a i) ?_ ?_
      (counted_release h.free_eq i)
    · intro j hij
      rw [hbitmap, Bitmap.get_clear, decide_eq_false hij, Bool.not_false, Bool.and_true]
    · intro j hij
      rw [hbitmap, Bitmap.getElem?_clear_of_ne _ hij]
  · rw [release_eq_self hi]
    exact h

theorem bitmap_ofBuffer (h : ofBuffer pool place buffer = .ok a) :
    a.bitmap = buffer.clearBytes (bitmapSize pool.frameCount) := by
  rw [ofBuffer] at h
  split at h
  · contradiction
  · obtain rfl := Except.ok.inj h
    rfl

theorem booked_ofBuffer (hnew : ofBuffer pool place buffer = .ok a) :
    Booked pool place buffer a := by
  obtain ⟨hflaw, hregion, hplace, -, -⟩ := ofBuffer_eq_ok hnew
  have htotal : a.total = pool.frameCount := by rw [FrameAllocator.total, hregion]
  have hbitmap := bitmap_ofBuffer hnew
  have hcounted := counted_ofBuffer hnew
  constructor
  · exact hregion
  · exact htotal
  · exact hplace
  · rw [hplace, htotal, length_bitmapPart hflaw]
  · rw [hcounted, vacancies_eq]
  · exact used_add_free hcounted
  · intro i _ hi
    rw [htotal] at hi
    rw [hbitmap, Bitmap.get_clearBytes, decide_eq_false (by omega), Bool.and_false]
  · intro j hj
    rw [htotal] at hj
    rw [hbitmap, Bitmap.getElem?_clearBytes_of_le _ hj]

/-! ## Runs of requests -/

namespace Request

/-- The allocator that a request leaves behind, also where it stops the kernel. -/
def left (r : Request) (a : FrameAllocator) : FrameAllocator :=
  match r.serve a with
  | .ok _ b => b
  | .error _ b => b

end Request

theorem takeRun_induction {P : FrameAllocator → Prop} (htake : ∀ b i, P b → P (b.take i))
    (h : P a) (start n : ℕ) : P (a.takeRun start n) := by
  induction n generalizing a start with
  | zero => exact h
  | succ n ih => exact ih (htake a start h) (start + 1)

/-- What is kept by marking a frame as taken and as free is kept by every request. -/
theorem left_induction {P : FrameAllocator → Prop} (htake : ∀ b i, P b → P (b.take i))
    (hrelease : ∀ b i, P b → P (b.release i)) (h : P a) (r : Request) : P (r.left a) := by
  have hfree : ∀ p, P (a.deallocate p) := by
    intro p
    rcases deallocate_eq a p with hp | ⟨i, hp⟩
    · rw [hp]; exact h
    · rw [hp]; exact hrelease a i h
  cases r with
  | free p => exact hfree p
  | release f => exact hfree f.base
  | frame =>
    simp only [Request.left, Request.serve, allocateFrame]
    cases hr : a.reserveFrame with
    | none => exact h
    | some taken =>
      obtain ⟨i, b⟩ := taken
      obtain ⟨-, -, -, rfl⟩ := reserveFrame_eq_some hr
      cases haddress : (a.take i).addressOf i <;> simp only [haddress] <;> exact htake a i h
  | run size =>
    simp only [Request.left, Request.serve, allocate]
    cases hr : a.reserveRun size with
    | error e => exact h
    | ok taken =>
      obtain ⟨start, b⟩ := taken
      obtain ⟨-, -, -, rfl⟩ := reserveRun_eq_ok hr
      have hrun := takeRun_induction htake h start ((size + 4095) / 4096)
      cases haddress : (a.takeRun start ((size + 4095) / 4096)).addressOf start <;>
        simp only [haddress] <;> exact hrun

/-- The allocator after a run of requests, which goes on where one of them stops the kernel. -/
def leftAll (requests : List Request) (a : FrameAllocator) : FrameAllocator :=
  requests.foldl (fun b r => r.left b) a

theorem Booked.leftAll (h : Booked pool place buffer a) (requests : List Request) :
    Booked pool place buffer (leftAll requests a) := by
  induction requests generalizing a with
  | nil => exact h
  | cons r rest ih =>
    exact ih (left_induction (fun b i hb => hb.take i) (fun b i hb => hb.release i) h r)

/-- The states of an allocator over `pool` whose bitmap is at `place`: whatever is asked of a new
one leads to them, also where the kernel stops on the way. -/
def Reachable (pool place : Extent) (a : FrameAllocator) : Prop :=
  ∃ buffer new requests, ofBuffer pool place buffer = .ok new ∧ leftAll requests new = a

theorem Reachable.booked (h : Reachable pool place a) : ∃ buffer, Booked pool place buffer a := by
  obtain ⟨buffer, new, requests, hnew, rfl⟩ := h
  exact ⟨buffer, (booked_ofBuffer hnew).leftAll requests⟩

theorem Reachable.aligned (h : Reachable pool place a) : a.region.base.val % 4096 = 0 := by
  obtain ⟨buffer, hbooked⟩ := h.booked
  obtain ⟨_, new, _, hnew, -⟩ := h
  rw [hbooked.region]
  exact (flaw?_eq_none_iff.mp (ofBuffer_eq_ok hnew).1).1

theorem Reachable.sound (h : Reachable pool place a)
    (hend : a.startOf a.total ≤ 0x10000000000000) : Sound a := by
  obtain ⟨_, hbooked⟩ := h.booked
  exact ⟨h.aligned, hend, hbooked.free_eq⟩

theorem Reachable.left (h : Reachable pool place a) (r : Request) :
    Reachable pool place (r.left a) := by
  obtain ⟨buffer, new, requests, hnew, rfl⟩ := h
  exact ⟨buffer, new, requests ++ [r], hnew, by rw [FrameAllocator.leftAll, List.foldl_append]; rfl⟩

/-- A run of requests that does not stop the kernel leads to the same allocator as one that may. -/
theorem leftAll_of_serveAll {requests : List Request} {out out' : Set ℕ}
    (h : serveAll requests a out = .ok (b, out')) : leftAll requests a = b := by
  induction requests generalizing a out with
  | nil =>
    obtain ⟨rfl, -⟩ := Prod.mk.inj (Except.ok.inj h)
    rfl
  | cons r rest ih =>
    rw [serveAll] at h
    cases hr : r.serve a with
    | error stop c => simp [hr] at h
    | ok granted c =>
      simp only [hr] at h
      have hleft : r.left a = c := by simp only [Request.left, hr]
      rw [leftAll, List.foldl_cons, hleft]
      exact ih h

/-- The books stay in order. For every pool, place and buffer of which an allocator is made, and
whatever is asked of it afterwards, also if the kernel stops on the way: the free count is the
number of clear bits of frames and at most the number of frames, so used and free frames add up to
all; bits that belong to no frame are clear; the buffer keeps its bytes past the bitmap; and pool,
bitmap region and number of frames are what they were. -/
theorem books_stay_in_order (hnew : ofBuffer pool place buffer = .ok a)
    (requests : List Request) : Booked pool place buffer (leftAll requests a) :=
  (booked_ofBuffer hnew).leftAll requests

/-- Two of three frames lie past the physical addresses: the kernel stops as it hands them out, and
they are marked and counted. The second byte of the buffer is not needed. -/
theorem books_stay_in_order_past_memory :
    ∃ a, ofBuffer ⟨⟨0xffffffffff000, by decide⟩, 0x3000⟩ ⟨⟨0x1000, by decide⟩, 1⟩
        ⟨#[0xff, 0xaa]⟩ = .ok a ∧
      Request.frame.serve (leftAll [.frame] a) =
        .error .addressRange (leftAll [.frame, .frame] a) ∧
      (leftAll [.frame, .frame, .run 0x1000] a).free = 0 ∧
      Booked ⟨⟨0xffffffffff000, by decide⟩, 0x3000⟩ ⟨⟨0x1000, by decide⟩, 1⟩ ⟨#[0xff, 0xaa]⟩
        (leftAll [.frame, .frame, .run 0x1000] a) :=
  ⟨_, rfl, rfl, rfl, books_stay_in_order rfl [.frame, .frame, .run 0x1000]⟩

end FrameAllocator

end KernelCore
