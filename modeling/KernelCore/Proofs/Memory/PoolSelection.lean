import KernelCore.Proofs.Memory.Setup

/-!
# Choice of the frame pool

How a memory map is answered is said once, by cases: there is nothing usable; the longest usable
entry becomes the pool and the longest other one takes its bitmap; or no other one can, and the
longest is split, if it has frames for both. With usable memory in whole frames, each described
once, the pool and the place of its bitmap make an allocator in every case that yields them. Entries
without a whole frame are the exception: the bitmap of such a pool is of no bytes, so that any other
usable entry can hold it, and only a map with a single usable entry gets the pool refused.
-/

namespace KernelCore

/-- Number of whole frames that an entry describes. -/
def MapEntry.frameCount (e : MapEntry) : ℕ := e.length.toNat / 4096

/-- The entry of an index describes usable memory. -/
def UsableAt (entries : List MapEntry) (i : ℕ) (e : MapEntry) : Prop :=
  entries[i]? = some e ∧ e.isUsable = true

/-- No usable entry is longer than that of the index. -/
structure Longest (entries : List MapEntry) (i : ℕ) (e : MapEntry) : Prop where
  usable : UsableAt entries i e
  length_le : ∀ j f, UsableAt entries j f → f.length.toNat ≤ e.length.toNat

/-- Another usable entry has room for the bitmap of the frames of an entry. -/
structure HasRoom (entries : List MapEntry) (i : ℕ) (e : MapEntry) (j : ℕ) (f : MapEntry) :
    Prop where
  usable : UsableAt entries j f
  ne : j ≠ i
  room : bitmapSize e.frameCount ≤ f.length.toNat

/-- No other entry is usable. -/
structure Sole (entries : List MapEntry) (i : ℕ) (e : MapEntry) : Prop where
  usable : UsableAt entries i e
  only : ∀ j f, UsableAt entries j f → j = i

/-- `n` frames from the start of an entry on are the pool, and the `k` after them its bitmap. -/
structure Split (e : MapEntry) (n k : ℕ) (pool : FramePool) : Prop where
  base : pool.frames.base.val = e.base.toNat
  length : pool.frames.length.toNat = n * 4096
  bitmapBase : pool.bitmap.base.val = e.base.toNat + n * 4096
  bitmapLength : pool.bitmap.length.toNat = k * 4096

/-- Usable memory lies within the physical addresses. -/
def UsableInMemory (entries : List MapEntry) : Prop :=
  ∀ e ∈ entries, e.isUsable = true →
    e.base.toNat < 0x10000000000000 ∧ e.base.toNat + e.length.toNat ≤ 0x10000000000000

/-- Usable memory is described once, from a frame boundary on and with a whole frame in each entry,
and lies within the physical addresses. -/
structure FramedMap (entries : List MapEntry) : Prop where
  apart : entries.Pairwise fun e f => e.isUsable → f.isUsable → Disjoint e.bytes f.bytes
  aligned : ∀ e ∈ entries, e.isUsable = true → e.base.toNat % 4096 = 0
  whole : ∀ e ∈ entries, e.isUsable = true → 0 < e.frameCount
  inMemory : ∀ e ∈ entries, e.isUsable = true →
    e.base.toNat + e.length.toNat ≤ 0x10000000000000

/-- How a memory map is answered. -/
inductive Selected (entries : List MapEntry) : Except LayoutError FramePool → Prop
  | nothing (unusable : ∀ i e, ¬ UsableAt entries i e) : Selected entries (.error .noUsableMemory)
  | beside {i j : ℕ} {e f : MapEntry} {pool : FramePool} (longest : Longest entries i e)
      (room : HasRoom entries i e j f)
      (length_le : ∀ k g, HasRoom entries i e k g → g.length.toNat ≤ f.length.toNat)
      (frames : e.extent = .ok pool.frames) (bitmap : f.extent = .ok pool.bitmap) :
      Selected entries (.ok pool)
  | tooSmall {i : ℕ} {e : MapEntry} (longest : Longest entries i e)
      (alone : ∀ j f, ¬ HasRoom entries i e j f)
      (small : e.frameCount ≤ (bitmapSize e.frameCount + 4095) / 4096) :
      Selected entries (.error .poolTooSmall)
  | split {i n k : ℕ} {e : MapEntry} {pool : FramePool} (longest : Longest entries i e)
      (alone : ∀ j f, ¬ HasRoom entries i e j f) (pos : 0 < n)
      (bitmapFrames : k = (bitmapSize e.frameCount + 4095) / 4096)
      (whole : n + k = e.frameCount) (split : Split e n k pool) : Selected entries (.ok pool)

namespace MapEntry

theorem exists_extent {e : MapEntry} (h : e.base.toNat < 0x10000000000000) :
    ∃ r, e.extent = .ok r := by
  refine ⟨⟨⟨e.base.toNat, h⟩, e.length⟩, ?_⟩
  simp only [extent, PhysAddr.ofNat, dif_pos h]
  rfl

theorem frameCount_extent {e : MapEntry} {r : Extent} (h : e.extent = .ok r) :
    r.frameCount = e.frameCount := by
  rw [Extent.frameCount, (extent_eq_ok h).2, frameCount]

end MapEntry

namespace FramedMap

variable {entries : List MapEntry}

theorem usableInMemory (h : FramedMap entries) : UsableInMemory entries := by
  intro e he husable
  have hframes : e.frameCount * 4096 ≤ e.length.toNat := Nat.div_mul_le_self _ _
  have hwhole := h.whole e he husable
  have hend := h.inMemory e he husable
  omega

theorem disjoint (h : FramedMap entries) {i j : ℕ} {e f : MapEntry} (he : UsableAt entries i e)
    (hf : UsableAt entries j f) (hij : i ≠ j) : Disjoint e.bytes f.bytes := by
  obtain ⟨hi, rfl⟩ := List.getElem?_eq_some_iff.mp he.1
  obtain ⟨hj, rfl⟩ := List.getElem?_eq_some_iff.mp hf.1
  have hpairs := List.pairwise_iff_getElem.mp h.apart
  cases Nat.lt_or_gt_of_ne hij with
  | inl hlt => exact hpairs i j hi hj hlt he.2 hf.2
  | inr hgt => exact (hpairs j i hj hi hgt hf.2 he.2).symm

end FramedMap

namespace FramePool

variable {entries : List MapEntry}

theorem lift_ok_bind {ε α β : Type} (a : α) (f : α → ExceptT ε (Except Panic) β) :
    (liftM (.ok a : Except Panic α) >>= f : ExceptT ε (Except Panic) β) = f a := rfl

theorem mem_usable_iff {e : MapEntry} {i : ℕ} :
    (e, i) ∈ entries.zipIdx.filter (·.1.isUsable) ↔ UsableAt entries i e := by
  rw [List.mem_filter, List.mk_mem_zipIdx_iff_getElem?, UsableAt]

theorem mem_room_iff {e f : MapEntry} {i j : ℕ} :
    (f, j) ∈ (entries.zipIdx.filter (·.1.isUsable)).filter
        (fun r => r.2 != i && bitmapSize e.frameCount ≤ r.1.length.toNat) ↔
      HasRoom entries i e j f := by
  rw [List.mem_filter, mem_usable_iff]
  simp only [Bool.and_eq_true, bne_iff_ne, decide_eq_true_eq]
  exact ⟨fun h => ⟨h.1, h.2.1, h.2.2⟩, fun h => ⟨h.usable, h.ne, h.room⟩⟩

theorem carve_of_le {whole : Extent} {needed : ℕ}
    (h : whole.frameCount ≤ (needed + 4095) / 4096) :
    carve whole needed = .ok (.error .poolTooSmall) := by
  simp only [carve, if_pos h]
  rfl

/-- Where frames are left over, the bitmap is cut off after them. -/
theorem exists_split {e : MapEntry} {whole : Extent} {needed n : ℕ} (hwhole : e.extent = .ok whole)
    (hend : e.base.toNat + e.length.toNat ≤ 0x10000000000000) (hneeded : 0 < needed) (hn : 0 < n)
    (hsplit : n + (needed + 4095) / 4096 = e.frameCount) :
    ∃ pool, carve whole needed = .ok (.ok pool) ∧ Split e n ((needed + 4095) / 4096) pool := by
  obtain ⟨hbase, hlength⟩ := MapEntry.extent_eq_ok hwhole
  have hcount := MapEntry.frameCount_extent hwhole
  have hframes : e.frameCount * 4096 ≤ e.length.toNat := Nat.div_mul_le_self _ _
  have hkept : whole.frameCount - (needed + 4095) / 4096 = n := by omega
  have hleft : (UInt64.ofNat (n * 4096)).toNat = n * 4096 := by
    rw [UInt64.toNat_ofNat', Nat.mod_eq_of_lt (by omega)]
  have hcarved : (UInt64.ofNat ((needed + 4095) / 4096 * 4096)).toNat =
      (needed + 4095) / 4096 * 4096 := by
    rw [UInt64.toNat_ofNat', Nat.mod_eq_of_lt (by omega)]
  have hstop : (⟨whole.base, UInt64.ofNat (n * 4096)⟩ : Extent).stop = e.base.toNat + n * 4096 := by
    rw [Extent.stop, hleft, hbase]
    omega
  have hlt : e.base.toNat + n * 4096 < 0x10000000000000 := by omega
  simp only [carve, hkept]
  rw [if_neg (by omega), hstop, PhysAddr.ofNat, dif_pos hlt]
  exact ⟨_, rfl, hbase, hleft, rfl, hcarved⟩

/-- Every memory map with usable memory within the physical addresses is answered. -/
theorem exists_selected (h : UsableInMemory entries) :
    ∃ answer, ofEntries entries = .ok answer ∧ Selected entries answer := by
  have hextent : ∀ {i e}, UsableAt entries i e → ∃ r, e.extent = .ok r := fun hu =>
    MapEntry.exists_extent (h _ (List.mem_of_getElem? hu.1) hu.2).1
  rw [ofEntries]
  cases hlongest : longest? (entries.zipIdx.filter (·.1.isUsable)) with
  | none =>
    have hempty := longest?_eq_none_iff.mp hlongest
    refine ⟨_, rfl, .nothing fun i e hu => ?_⟩
    have hmem := mem_usable_iff.mpr hu
    rw [hempty] at hmem
    contradiction
  | some r =>
    obtain ⟨e, i⟩ := r
    have husable := mem_usable_iff.mp (longest?_mem hlongest)
    have hmax : Longest entries i e := ⟨husable, fun j f hf =>
      UInt64.le_iff_toNat_le.mp (length_le_longest? hlongest (mem_usable_iff.mpr hf))⟩
    obtain ⟨frames, hframes⟩ := hextent husable
    have hcount := MapEntry.frameCount_extent hframes
    simp only [hframes, lift_ok_bind, hcount]
    split
    · rename_i f j hother
      have hroom := mem_room_iff.mp (longest?_mem hother)
      obtain ⟨bitmap, hbitmap⟩ := hextent hroom.usable
      rw [hbitmap, lift_ok_bind]
      refine ⟨_, rfl, .beside hmax hroom (fun k g hg => ?_) hframes hbitmap⟩
      exact UInt64.le_iff_toNat_le.mp (length_le_longest? hother (mem_room_iff.mpr hg))
    · rename_i hother
      have halone : ∀ j f, ¬ HasRoom entries i e j f := by
        intro j f hroom
        have hmem := mem_room_iff.mpr hroom
        rw [longest?_eq_none_iff.mp hother] at hmem
        contradiction
      by_cases hsmall : e.frameCount ≤ (bitmapSize e.frameCount + 4095) / 4096
      · exact ⟨_, carve_of_le (hcount ▸ hsmall), .tooSmall hmax halone hsmall⟩
      · have hneeded : 0 < bitmapSize e.frameCount := by rw [bitmapSize]; omega
        obtain ⟨n, hn⟩ := Nat.exists_eq_add_of_lt (Nat.not_le.mp hsmall)
        obtain ⟨pool, hpool, hsplit⟩ := exists_split hframes
          (h e (List.mem_of_getElem? husable.1) husable.2).2 hneeded n.succ_pos (by omega)
        exact ⟨_, hpool, .split hmax halone n.succ_pos rfl (by omega) hsplit⟩

/-- A pool from the only usable entry is split from it. -/
theorem sole_split {i : ℕ} {e : MapEntry} {pool : FramePool} (h : Sole entries i e)
    (hselected : Selected entries (.ok pool)) :
    ∃ n k, 0 < n ∧ k = (bitmapSize e.frameCount + 4095) / 4096 ∧ n + k = e.frameCount ∧
      Split e n k pool := by
  cases hselected with
  | beside longest room length_le frames bitmap =>
    have hi := h.only _ _ longest.usable
    have hj := h.only _ _ room.usable
    exact absurd (hj.trans hi.symm) room.ne
  | split longest alone pos bitmapFrames whole split =>
    obtain rfl := h.only _ _ longest.usable
    obtain rfl := Option.some.inj (longest.usable.1.symm.trans h.usable.1)
    exact ⟨_, _, pos, bitmapFrames, whole, split⟩

/-! ## Pools of whole frames -/

/-- A pool with the place of its bitmap, chosen from the entry of an index. -/
structure Suits (entries : List MapEntry) (i : ℕ) (e : MapEntry) (pool : FramePool) : Prop where
  longest : Longest entries i e
  base : pool.frames.base.val = e.base.toNat
  inside : e.Holds pool.frames
  bitmapInside : ∃ j f, UsableAt entries j f ∧ f.Holds pool.bitmap
  apart : Disjoint pool.frames.bytes pool.bitmap.bytes
  room : bitmapSize pool.frames.frameCount ≤ pool.bitmap.length.toNat
  /-- Where other entries have room for the bitmap, the longest of them takes it. -/
  beside : (∃ j f, HasRoom entries i e j f) → e.extent = .ok pool.frames ∧
    ∃ j f, HasRoom entries i e j f ∧ f.extent = .ok pool.bitmap ∧
      ∀ k g, HasRoom entries i e k g → g.length.toNat ≤ f.length.toNat
  split : (¬ ∃ j f, HasRoom entries i e j f) →
    ∃ n k, 0 < n ∧ 0 < k ∧ n + k = e.frameCount ∧ Split e n k pool

theorem Suits.of_beside (hmap : FramedMap entries) {i j : ℕ} {e f : MapEntry} {pool : FramePool}
    (hlongest : Longest entries i e) (hroom : HasRoom entries i e j f)
    (hle : ∀ k g, HasRoom entries i e k g → g.length.toNat ≤ f.length.toNat)
    (hframes : e.extent = .ok pool.frames) (hbitmap : f.extent = .ok pool.bitmap) :
    Suits entries i e pool := by
  have hinside := MapEntry.holds_extent hframes
  have hbitmapInside := MapEntry.holds_extent hbitmap
  constructor
  · exact hlongest
  · exact (MapEntry.extent_eq_ok hframes).1
  · exact hinside
  · exact ⟨j, f, hroom.usable, hbitmapInside⟩
  · exact (hmap.disjoint hlongest.usable hroom.usable hroom.ne.symm).mono
      hinside.bytes_subset hbitmapInside.bytes_subset
  · rw [MapEntry.frameCount_extent hframes, (MapEntry.extent_eq_ok hbitmap).2]
    exact hroom.room
  · exact fun _ => ⟨hframes, j, f, hroom, hbitmap, hle⟩
  · exact fun halone => absurd ⟨j, f, hroom⟩ halone

theorem Suits.of_split {i n k : ℕ} {e : MapEntry} {pool : FramePool}
    (hlongest : Longest entries i e) (halone : ∀ j f, ¬ HasRoom entries i e j f) (hn : 0 < n)
    (hk : k = (bitmapSize e.frameCount + 4095) / 4096) (hwhole : n + k = e.frameCount)
    (hsplit : Split e n k pool) : Suits entries i e pool := by
  obtain ⟨hbase, hlength, hbitmapBase, hbitmapLength⟩ := hsplit
  have hframes : e.frameCount * 4096 ≤ e.length.toNat := Nat.div_mul_le_self _ _
  have hcount : pool.frames.frameCount = n := by
    rw [Extent.frameCount, hlength, Nat.mul_div_cancel _ (by decide)]
  have hneeded : bitmapSize e.frameCount ≤ k * 4096 := by omega
  have hpos : 0 < bitmapSize e.frameCount := by rw [bitmapSize]; omega
  have hless : bitmapSize n ≤ bitmapSize e.frameCount := by rw [bitmapSize, bitmapSize]; omega
  constructor
  · exact hlongest
  · exact hbase
  · exact ⟨hbase.ge, by rw [hbase, hlength]; omega⟩
  · exact ⟨i, e, hlongest.usable, by rw [hbitmapBase]; omega,
      by rw [hbitmapBase, hbitmapLength]; omega⟩
  · rw [Extent.bytes, Extent.bytes, Set.Ico_disjoint_Ico, hbase, hlength, hbitmapBase]
    omega
  · rw [hcount, hbitmapLength]
    exact hless.trans hneeded
  · rintro ⟨j, f, hroom⟩
    exact absurd hroom (halone j f)
  · exact fun _ => ⟨n, k, hn, by omega, hwhole, hbase, hlength, hbitmapBase, hbitmapLength⟩

/-- An entry of whole frames is split so that its bitmap leaves one of them, unless it has just
one. -/
theorem frameCount_le_iff {e : MapEntry} (h : 0 < e.frameCount) :
    e.frameCount ≤ (bitmapSize e.frameCount + 4095) / 4096 ↔ e.frameCount = 1 := by
  rw [bitmapSize]
  omega

/-- Any buffer as long as the bitmap's place makes an allocator. -/
theorem Suits.exists_ofBuffer {i : ℕ} {e : MapEntry} {pool : FramePool}
    (h : Suits entries i e pool) (haligned : e.base.toNat % 4096 = 0)
    (hsome : 0 < pool.frames.frameCount) {buffer : Bitmap}
    (hbuffer : buffer.bytes.size = pool.bitmap.length.toNat) :
    ∃ a, FrameAllocator.ofBuffer pool.frames pool.bitmap buffer = .ok a := by
  have hroom := h.room
  have hlength : pool.frames.frameCount ≤ pool.frames.length.toNat := Nat.div_le_self _ _
  have hpos : 0 < bitmapSize pool.frames.frameCount := by rw [bitmapSize]; omega
  have hapart : pool.frames.overlaps pool.bitmap = false :=
    Extent.overlaps_eq_false h.apart (by omega) (by omega)
  have hflaw : FrameAllocator.flaw? pool.frames pool.bitmap buffer.bytes.size = none :=
    FrameAllocator.flaw?_eq_none_iff.mpr
      ⟨by rw [h.base, haligned], by omega, hapart, hroom, by rw [hbuffer]; exact hroom⟩
  rw [FrameAllocator.ofBuffer]
  split
  · rename_i flaw hfound
    rw [hflaw] at hfound
    contradiction
  · exact ⟨_, rfl⟩

theorem unusable_iff : (∀ e ∈ entries, ¬ e.isUsable = true) ↔ ∀ i e, ¬ UsableAt entries i e := by
  simp only [UsableAt, List.mem_iff_getElem?, not_and, forall_exists_index]
  exact forall_comm

/-- A pool of one frame has room for its bitmap in every other entry of whole frames. -/
theorem sole_of_small (hmap : FramedMap entries) {i : ℕ} {e : MapEntry}
    (hlongest : Longest entries i e) (halone : ∀ j f, ¬ HasRoom entries i e j f)
    (hsmall : e.frameCount ≤ (bitmapSize e.frameCount + 4095) / 4096) :
    Sole entries i e ∧ e.frameCount = 1 := by
  have hwhole : ∀ {j f}, UsableAt entries j f → 0 < f.frameCount := fun hf =>
    hmap.whole _ (List.mem_of_getElem? hf.1) hf.2
  have hone := (frameCount_le_iff (hwhole hlongest.usable)).mp hsmall
  refine ⟨⟨hlongest.usable, fun j f hf => ?_⟩, hone⟩
  apply Decidable.byContradiction
  intro hne
  have hlength := hwhole hf
  rw [MapEntry.frameCount] at hlength
  exact halone j f ⟨hf, hne, by rw [hone, bitmapSize]; omega⟩

theorem exists_suits (hmap : FramedMap entries) {pool : FramePool}
    (h : Selected entries (.ok pool)) :
    ∃ i e, Suits entries i e pool ∧ 0 < pool.frames.frameCount := by
  cases h with
  | beside longest room length_le frames bitmap =>
    refine ⟨_, _, .of_beside hmap longest room length_le frames bitmap, ?_⟩
    rw [MapEntry.frameCount_extent frames]
    exact hmap.whole _ (List.mem_of_getElem? longest.usable.1) longest.usable.2
  | split longest alone pos bitmapFrames whole split =>
    refine ⟨_, _, .of_split longest alone pos bitmapFrames whole split, ?_⟩
    rw [Extent.frameCount, split.length, Nat.mul_div_cancel _ (by decide)]
    exact pos

/-- A pool that is selected works. For every memory map with usable memory in whole frames, each
described once and within the physical addresses, the kernel goes on; it finds no usable memory
exactly if no entry is usable, and the pool too small exactly if the only usable entry is one of a
single frame. Otherwise the pool begins where a usable entry of the greatest length does and lies
inside it; its bitmap lies inside a usable entry, away from the pool, and has a bit for each frame;
and any buffer as long as that makes an allocator. The pool is the whole entry if another usable one
has room for the bitmap, and the longest of those takes it; if none has, pool and bitmap split the
entry between them. -/
theorem selected_pool_works (h : FramedMap entries) :
    ∃ answer, ofEntries entries = .ok answer ∧
      (answer = .error .noUsableMemory ↔ ∀ e ∈ entries, ¬ e.isUsable = true) ∧
      (answer = .error .poolTooSmall ↔ ∃ i e, Sole entries i e ∧ e.frameCount = 1) ∧
      ∀ pool, answer = .ok pool → ∃ i e, Suits entries i e pool ∧
        ∀ buffer : Bitmap, buffer.bytes.size = pool.bitmap.length.toNat →
          ∃ a, FrameAllocator.ofBuffer pool.frames pool.bitmap buffer = .ok a := by
  obtain ⟨answer, hanswer, hselected⟩ := exists_selected h.usableInMemory
  rw [unusable_iff]
  refine ⟨answer, hanswer, ?_⟩
  rcases answer with (_ | _) | pool
  · cases hselected with
    | nothing unusable =>
      refine ⟨iff_of_true rfl unusable, iff_of_false (by simp) ?_, by simp⟩
      rintro ⟨i, e, hsole, -⟩
      exact unusable i e hsole.usable
  · cases hselected with
    | tooSmall longest alone small =>
      exact ⟨iff_of_false (by simp) fun hnone => hnone _ _ longest.usable,
        iff_of_true rfl ⟨_, _, sole_of_small h longest alone small⟩, by simp⟩
  · obtain ⟨i, e, hsuits, hsome⟩ := exists_suits h hselected
    have husable := hsuits.longest.usable
    have haligned := h.aligned e (List.mem_of_getElem? husable.1) husable.2
    refine ⟨iff_of_false (by simp) fun hnone => hnone i e husable, iff_of_false (by simp) ?_, ?_⟩
    · rintro ⟨j, f, hsole, hone⟩
      obtain ⟨n, k, hn, hk, hwhole, -⟩ := sole_split hsole hselected
      rw [hone, bitmapSize] at hk
      omega
    · rintro _ ⟨⟩
      exact ⟨i, e, hsuits, fun buffer => hsuits.exists_ofBuffer haligned hsome⟩

/-- The other usable entry is a frame that is too short for the bitmap of 65537 frames, which takes
three frames off their end. -/
theorem selected_pool_works_split :
    ∃ pool, ofEntries [⟨0x1000, 0x1000, .usable⟩, ⟨0, 0x200000, .reserved⟩,
        ⟨0x100000, 0x10001000, .usable⟩] = .ok (.ok pool) ∧
      pool.frames.frameCount = 65534 ∧ pool.bitmap.length = 0x3000 ∧
      ∃ a, FrameAllocator.ofBuffer pool.frames pool.bitmap ⟨.replicate 0x3000 0xff⟩ = .ok a := by
  have hmap : FramedMap [⟨0x1000, 0x1000, .usable⟩, ⟨0, 0x200000, .reserved⟩,
      ⟨0x100000, 0x10001000, .usable⟩] := by
    constructor
    · simp [MapEntry.bytes, Set.Ico_disjoint_Ico, MapEntry.isUsable]
    · decide
    · decide
    · decide
  obtain ⟨answer, hanswer, -, -, hworks⟩ := selected_pool_works hmap
  have hchosen : ofEntries [⟨0x1000, 0x1000, .usable⟩, ⟨0, 0x200000, .reserved⟩,
      ⟨0x100000, 0x10001000, .usable⟩] =
        .ok (.ok ⟨⟨⟨0x100000, by decide⟩, 0xfffe000⟩, ⟨⟨0x100fe000, by decide⟩, 0x3000⟩⟩) := rfl
  obtain rfl := Except.ok.inj (hanswer.symm.trans hchosen)
  obtain ⟨-, -, -, hnew⟩ := hworks _ rfl
  exact ⟨_, hchosen, by decide, rfl, hnew _ (by simp)⟩

/-! ## Entries without a whole frame -/

/-- The bitmap of a pool without a whole frame has room anywhere. -/
theorem hasRoom_of_frameless {i j : ℕ} {e f : MapEntry} (hframes : e.frameCount = 0)
    (hf : UsableAt entries j f) (hne : j ≠ i) : HasRoom entries i e j f :=
  ⟨hf, hne, by rw [hframes, bitmapSize]; omega⟩

/-- An allocator refuses a pool without a whole frame. -/
theorem ofBuffer_of_frameless {pool : FramePool} (hframes : pool.frames.frameCount = 0)
    (buffer : Bitmap) :
    ∃ flaw, FrameAllocator.ofBuffer pool.frames pool.bitmap buffer = .error flaw := by
  rw [FrameAllocator.ofBuffer]
  split
  · exact ⟨_, rfl⟩
  · rename_i hflaw
    exact absurd hframes (FrameAllocator.flaw?_eq_none_iff.mp hflaw).2.1

/-- A pool holds a whole frame exactly if the entry that it comes from does. -/
theorem frameCount_pos_iff {pool : FramePool} (h : Selected entries (.ok pool)) :
    0 < pool.frames.frameCount ↔ ∃ i e, UsableAt entries i e ∧ 0 < e.frameCount := by
  have hlongest : ∀ {i e}, Longest entries i e →
      ((∃ j f, UsableAt entries j f ∧ 0 < f.frameCount) ↔ 0 < e.frameCount) := by
    intro i e hmax
    refine ⟨fun ⟨j, f, hf, hpos⟩ => ?_, fun hpos => ⟨i, e, hmax.usable, hpos⟩⟩
    exact hpos.trans_le (Nat.div_le_div_right (hmax.length_le j f hf))
  cases h with
  | beside longest room length_le frames bitmap =>
    rw [hlongest longest, MapEntry.frameCount_extent frames]
  | split longest alone pos bitmapFrames whole split =>
    rw [hlongest longest, Extent.frameCount, split.length, Nat.mul_div_cancel _ (by decide)]
    omega

/-- When a pool without a frame is reported. For every memory map with usable memory within the
physical addresses the kernel goes on, and a pool that is chosen holds a whole frame exactly if some
usable entry does. If there are usable entries and none of them does, the pool is said to be too
small if there is just one such entry; of several, one becomes a pool that holds no frame, and of
which no buffer makes an allocator. -/
theorem pool_holds_a_frame (h : UsableInMemory entries) :
    ∃ answer, ofEntries entries = .ok answer ∧
      (∀ pool, answer = .ok pool →
        (0 < pool.frames.frameCount ↔ ∃ i e, UsableAt entries i e ∧ 0 < e.frameCount)) ∧
      ((∃ i e, UsableAt entries i e) → (∀ i e, UsableAt entries i e → e.frameCount = 0) →
        (answer = .error .poolTooSmall ↔ ∃ i e, Sole entries i e) ∧
        ((¬ ∃ i e, Sole entries i e) → ∃ pool, answer = .ok pool ∧ pool.frames.frameCount = 0 ∧
          ∀ buffer, ∃ flaw,
            FrameAllocator.ofBuffer pool.frames pool.bitmap buffer = .error flaw)) := by
  obtain ⟨answer, hanswer, hselected⟩ := exists_selected h
  refine ⟨answer, hanswer, ?_⟩
  rcases answer with (_ | _) | pool
  · cases hselected with
    | nothing unusable =>
      refine ⟨by simp, ?_⟩
      rintro ⟨i, e, husable⟩
      exact absurd husable (unusable i e)
  · cases hselected with
    | @tooSmall i e longest alone small =>
      refine ⟨by simp, fun _ hnone => ?_⟩
      have hsole : Sole entries i e := by
        refine ⟨longest.usable, fun j f hf => ?_⟩
        apply Decidable.byContradiction
        intro hne
        exact alone j f (hasRoom_of_frameless (hnone i e longest.usable) hf hne)
      exact ⟨iff_of_true rfl ⟨i, e, hsole⟩, fun hseveral => absurd ⟨i, e, hsole⟩ hseveral⟩
  · have hpos := frameCount_pos_iff hselected
    refine ⟨?_, fun _ hnone => ⟨iff_of_false (by simp) ?_, fun _ => ?_⟩⟩
    · rintro _ ⟨⟩
      exact hpos
    · rintro ⟨i, e, hsole⟩
      obtain ⟨n, k, hn, -, hwhole, -⟩ := sole_split hsole hselected
      have hframes := hnone i e hsole.usable
      omega
    · have hframes : pool.frames.frameCount = 0 := by
        apply Nat.eq_zero_of_not_pos
        intro hsome
        obtain ⟨i, e, husable, hframe⟩ := hpos.mp hsome
        exact absurd (hnone i e husable) (Nat.ne_of_gt hframe)
      exact ⟨pool, rfl, hframes, ofBuffer_of_frameless hframes⟩

/-- Two entries of half a frame and less: the longer one becomes the pool, and is refused later. -/
theorem pool_holds_a_frame_unless_scraps :
    ∃ pool, ofEntries [⟨0x1000, 0x800, .usable⟩, ⟨0x3000, 0x400, .usable⟩] = .ok (.ok pool) ∧
      pool.frames.frameCount = 0 ∧ ∀ buffer, ∃ flaw,
        FrameAllocator.ofBuffer pool.frames pool.bitmap buffer = .error flaw := by
  have hmap : UsableInMemory [⟨0x1000, 0x800, .usable⟩, ⟨0x3000, 0x400, .usable⟩] := by
    unfold UsableInMemory
    decide
  obtain ⟨answer, hanswer, -, hsmall⟩ := pool_holds_a_frame hmap
  have hnone : ∀ i e, UsableAt [⟨0x1000, 0x800, .usable⟩, ⟨0x3000, 0x400, .usable⟩] i e →
      e.frameCount = 0 := by
    rintro i e ⟨he, -⟩
    have hmem := List.mem_of_getElem? he
    simp only [List.mem_cons, List.not_mem_nil, or_false] at hmem
    rcases hmem with rfl | rfl <;> rfl
  have hseveral : ¬ ∃ i e, Sole [⟨0x1000, 0x800, .usable⟩, ⟨0x3000, 0x400, .usable⟩] i e := by
    rintro ⟨i, e, hsole⟩
    have hfirst := hsole.only 0 _ ⟨rfl, rfl⟩
    have hsecond := hsole.only 1 _ ⟨rfl, rfl⟩
    omega
  obtain ⟨pool, rfl, hframes, hrefused⟩ := (hsmall ⟨0, _, rfl, rfl⟩ hnone).2 hseveral
  exact ⟨pool, hanswer, hframes, hrefused⟩

end FramePool

end KernelCore
