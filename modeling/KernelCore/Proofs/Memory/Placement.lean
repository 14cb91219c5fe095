import KernelCore.Proofs.Memory.PoolSelection

/-!
# Allocators made in place

The allocator in memory is made of the first bytes of its bitmap's region, no more than the bitmap
needs or the region has, while one made of a buffer is given all of it. The shorter buffer is found
too short exactly if the region is. Afterwards no operation reads or writes past the bitmap, so the
bytes after it are carried along: the allocator of the buffer is the one in memory with those bytes
appended, and stays it.
-/

namespace KernelCore

namespace Bitmap

/-- The bitmap with other bytes after it. -/
def append (m : Bitmap) (tail : Array UInt8) : Bitmap := ⟨m.bytes ++ tail⟩

variable {m : Bitmap} {i : ℕ}

theorem get_append (tail : Array UInt8) (h : i / 8 < m.bytes.size) :
    (m.append tail).get i = m.get i := by
  rw [get, get, append, Array.getElem?_append_left h]

theorem modify_append (tail : Array UInt8) {f : UInt8 → UInt8} (h : i < m.bytes.size) :
    (m.bytes ++ tail).modify i f = m.bytes.modify i f ++ tail := by
  apply Array.ext_getElem?
  intro j
  rw [Array.getElem?_modify]
  by_cases hj : j < m.bytes.size
  · rw [Array.getElem?_append_left hj, Array.getElem?_append_left (by simpa using hj),
      Array.getElem?_modify]
  · rw [if_neg (by omega), Array.getElem?_append_right (by omega),
      Array.getElem?_append_right (by simpa using hj), Array.size_modify]

theorem set_append (tail : Array UInt8) (h : i / 8 < m.bytes.size) :
    (m.append tail).set i = (m.set i).append tail := by
  rw [set, set, append, append, modify_append tail h]

theorem clear_append (tail : Array UInt8) (h : i / 8 < m.bytes.size) :
    (m.append tail).clear i = (m.clear i).append tail := by
  rw [clear, clear, get_append tail h]
  split
  · rw [append, append, modify_append tail h]
  · rfl

end Bitmap

namespace FrameAllocator

/-! ## More bytes than the bitmap needs -/

/-- The allocator in a buffer with other bytes after its own. -/
def extend (a : FrameAllocator) (tail : Array UInt8) : FrameAllocator :=
  { a with
    bitmap := a.bitmap.append tail
    fits := by
      have hfits := a.fits
      rw [Bitmap.append, Array.size_append]
      omega }

variable {a : FrameAllocator} (tail : Array UInt8)

/-- The byte with the bit of a frame is there. -/
theorem div_lt_size {i : ℕ} (hi : i < a.total) : i / 8 < a.bitmap.bytes.size := by
  have hfits := a.fits
  rw [total] at hi
  omega

@[simp] theorem total_extend (a : FrameAllocator) : (a.extend tail).total = a.total := rfl

@[simp] theorem free_extend (a : FrameAllocator) : (a.extend tail).free = a.free := rfl

@[simp] theorem indexOf?_extend (a : FrameAllocator) : (a.extend tail).indexOf? = a.indexOf? := rfl

@[simp] theorem addressOf_extend (a : FrameAllocator) :
    (a.extend tail).addressOf = a.addressOf := rfl

@[simp] theorem isTaken_extend (a : FrameAllocator) : (a.extend tail).isTaken = a.isTaken := by
  funext i
  rw [isTaken, isTaken, total_extend]
  by_cases hi : i < a.total
  · rw [extend, Bitmap.get_append tail (div_lt_size hi)]
  · rw [decide_eq_false hi, Bool.false_and, Bool.false_and]

theorem take_extend (a : FrameAllocator) (i : ℕ) :
    (a.extend tail).take i = (a.take i).extend tail := by
  rw [take, take, isTaken_extend, total_extend]
  split
  · rename_i hi
    have hlt : i < a.total := of_decide_eq_true (Bool.and_eq_true_iff.mp hi).1
    simp only [extend, Bitmap.set_append tail (div_lt_size hlt)]
  · rfl

theorem release_extend (a : FrameAllocator) (i : ℕ) :
    (a.extend tail).release i = (a.release i).extend tail := by
  rw [release, release, isTaken_extend]
  split
  · rename_i hi
    simp only [extend, Bitmap.clear_append tail (div_lt_size (isTaken_lt hi))]
  · rfl

theorem takeRun_extend (a : FrameAllocator) (start n : ℕ) :
    (a.extend tail).takeRun start n = (a.takeRun start n).extend tail := by
  induction n generalizing a start with
  | zero => rfl
  | succ n ih => rw [takeRun, takeRun, take_extend, ih]

theorem deallocate_extend (a : FrameAllocator) (p : PhysAddr) :
    (a.extend tail).deallocate p = (a.deallocate p).extend tail := by
  have hregion : (a.extend tail).region = a.region := rfl
  rw [deallocate, deallocate, indexOf?_extend, hregion]
  split
  · cases a.indexOf? p with
    | none => rfl
    | some i => exact release_extend tail a i
  · rfl

theorem isUsed_extend (a : FrameAllocator) (f : Frame) : (a.extend tail).isUsed f = a.isUsed f := by
  rw [isUsed, isUsed, indexOf?_extend, isTaken_extend]

theorem reserveFrame_extend (a : FrameAllocator) : (a.extend tail).reserveFrame =
    a.reserveFrame.map fun taken => (taken.1, taken.2.extend tail) := by
  rw [reserveFrame, reserveFrame, isTaken_extend, total_extend, free_extend]
  split
  · rfl
  · cases firstFree? a.isTaken a.total 0 with
    | none => rfl
    | some i => simp only [Option.map_some, take_extend]

theorem reserveRun_extend (a : FrameAllocator) (size : ℕ) : (a.extend tail).reserveRun size =
    (a.reserveRun size).map fun taken => (taken.1, taken.2.extend tail) := by
  simp only [reserveRun, isTaken_extend, total_extend, free_extend]
  split
  · rfl
  · split
    · rfl
    · cases firstRun? a.isTaken ((size + 4095) / 4096) a.total 0 0 with
      | none => rfl
      | some start => simp only [takeRun_extend, Except.map]

/-! ## Operations -/

/-- What can be asked of an allocator. -/
inductive Use
  | frame
  | run (size : ℕ)
  | free (p : PhysAddr)
  | isUsed (f : Frame)
  | figures

inductive Reply
  | frame (f : Option Frame)
  | run (p : Except FrameError PhysAddr)
  | freed
  | isUsed (used : Bool)
  | figures (region bitmapRegion : Extent) (total free used : ℕ)

def Use.perform : Use → EStateM Panic FrameAllocator Reply
  | .frame => .frame <$> allocateFrame
  | .run size => .run <$> allocate size
  | .free p => do
    modify fun a => a.deallocate p
    pure .freed
  | .isUsed f => do
    let a ← get
    pure (.isUsed (a.isUsed f))
  | .figures => do
    let a ← get
    pure (.figures a.region a.bitmapRegion a.total a.free a.used)

def useAll (uses : List Use) : EStateM Panic FrameAllocator (List Reply) :=
  uses.mapM Use.perform

/-- Both end in the same way, and what was after the bitmap is there still. -/
inductive SideBySide {α : Type} (a : FrameAllocator) (tail : Array UInt8) :
    EStateM.Result Panic FrameAllocator α → EStateM.Result Panic FrameAllocator α → Prop
  | ok {b : FrameAllocator} (x : α) (place : SamePlace a b) :
      SideBySide a tail (.ok x b) (.ok x (b.extend tail))
  | error {b : FrameAllocator} (stop : Panic) (place : SamePlace a b) :
      SideBySide a tail (.error stop b) (.error stop (b.extend tail))

/-- No operation depends on what is after the bitmap. -/
theorem Use.sideBySide (u : Use) (a : FrameAllocator) :
    SideBySide a tail (u.perform a) (u.perform (a.extend tail)) := by
  cases u with
  | frame =>
    simp only [perform, Functor.map, EStateM.map, allocateFrame, reserveFrame_extend]
    cases hr : a.reserveFrame with
    | none => exact .ok _ (.refl a)
    | some taken =>
      obtain ⟨i, b⟩ := taken
      obtain ⟨-, -, -, rfl⟩ := reserveFrame_eq_some hr
      simp only [Option.map_some, addressOf_extend]
      cases (a.take i).addressOf i with
      | ok p => exact .ok _ (samePlace_take a i)
      | error stop => exact .error stop (samePlace_take a i)
  | run size =>
    simp only [perform, Functor.map, EStateM.map, allocate, reserveRun_extend]
    cases hr : a.reserveRun size with
    | error e => exact .ok _ (.refl a)
    | ok taken =>
      obtain ⟨start, b⟩ := taken
      obtain ⟨-, -, -, rfl⟩ := reserveRun_eq_ok hr
      simp only [Except.map, addressOf_extend]
      cases (a.takeRun start ((size + 4095) / 4096)).addressOf start with
      | ok p => exact .ok _ (samePlace_takeRun a start _)
      | error stop => exact .error stop (samePlace_takeRun a start _)
  | free p =>
    have hfree : Use.perform (.free p) (a.extend tail) =
        .ok .freed ((a.deallocate p).extend tail) := by
      rw [← deallocate_extend]
      rfl
    rw [hfree]
    exact .ok _ (samePlace_deallocate a p)
  | isUsed f =>
    have hused : Use.perform (.isUsed f) (a.extend tail) =
        .ok (.isUsed (a.isUsed f)) (a.extend tail) := by
      rw [← isUsed_extend tail a f]
      rfl
    rw [hused]
    exact .ok _ (.refl a)
  | figures => exact .ok _ (.refl a)

end FrameAllocator

/-! ## Allocators in memory -/

namespace Memory

/-- A copy of the `n` bytes from an address on, as a bitmap. -/
def bitmap (m : Memory) (a n : ℕ) : Bitmap := ⟨(m.bytes a n).toArray⟩

theorem size_bitmap (m : Memory) (a n : ℕ) : (m.bitmap a n).bytes.size = n := by
  rw [bitmap, List.size_toArray, length_bytes]

theorem append_bitmap (m : Memory) (a : ℕ) {k n : ℕ} (h : k ≤ n) :
    (m.bitmap a k).append (m.bytes (a + k) (n - k)).toArray = m.bitmap a n := by
  obtain ⟨d, rfl⟩ := Nat.exists_eq_add_of_le h
  rw [Nat.add_sub_cancel_left]
  simp [bitmap, Bitmap.append, bytes, List.range_add, Nat.add_assoc]

/-- The bytes that are cleared in memory are those that are cleared in a copy of it. -/
theorem clearBytes_bitmap (m : Memory) (a n k : ℕ) :
    (m.bitmap a n).clearBytes k = (m.clear a k).bitmap a n := by
  rw [bitmap, bitmap, Bitmap.clearBytes, Bitmap.mk.injEq]
  apply Array.ext
  · simp
  · intro i h₁ h₂
    simp only [Array.getElem_mapIdx, List.getElem_toArray, bytes, List.getElem_map,
      List.getElem_range, byte_clear]
    congr 1
    simp

end Memory

namespace ResidentAllocator

open FrameAllocator

variable {r : ResidentAllocator} {m : Memory} {b : FrameAllocator} {length : ℕ}

/-- Bytes of the region of `length` bytes that are after the bitmap. -/
def after (r : ResidentAllocator) (length : ℕ) (m : Memory) : Array UInt8 :=
  (m.bytes (r.storage.val + r.size) (length - r.size)).toArray

/-- The allocator in memory with the whole region of `length` bytes for its buffer. -/
def whole (r : ResidentAllocator) (length : ℕ) (m : Memory) : FrameAllocator :=
  (r.load m).extend (r.after length m)

theorem whole_store (h : SamePlace (r.load m) b) :
    (r.store b m).1.whole length (r.store b m).2 = b.extend (r.after length m) := by
  have hafter : (r.store b m).1.after length (r.store b m).2 = r.after length m :=
    congrArg List.toArray (Memory.bytes_congr fun c hc _ => byte_store h (.inr hc))
  rw [whole, load_store h, hafter]

end ResidentAllocator

namespace FrameAllocator

/-! ## Making an allocator -/

/-- Pool and bitmap can make an allocator. -/
structure Suitable (pool place : Extent) : Prop where
  aligned : pool.base.val % 4096 = 0
  whole : 0 < pool.frameCount
  apart : Disjoint pool.bytes place.bytes
  room : (pool.frameCount + 7) / 8 ≤ place.length.toNat

variable {pool place : Extent}

/-- That a bitmap region is too short is seen in its own length, so a buffer that is cut off at
what the bitmap needs has the same flaw as the whole region. -/
theorem flaw?_min (pool place : Extent) :
    flaw? pool place (min (bitmapSize pool.frameCount) place.length.toNat) =
      flaw? pool place place.length.toNat := by
  have hshort : (min (bitmapSize pool.frameCount) place.length.toNat < bitmapSize pool.frameCount) ↔
      place.length.toNat < bitmapSize pool.frameCount := by omega
  simp only [flaw?, hshort]

theorem suitable_iff : flaw? pool place place.length.toNat = none ↔ Suitable pool place := by
  rw [flaw?_eq_none_iff]
  constructor
  · rintro ⟨haligned, hwhole, hapart, hroom, -⟩
    exact ⟨haligned, by omega, Extent.disjoint_bytes hapart, hroom⟩
  · intro h
    have hwhole := h.whole
    have hroom := h.room
    have hlength : pool.frameCount * 4096 ≤ pool.length.toNat := Nat.div_mul_le_self _ _
    have hapart := Extent.overlaps_eq_false h.apart (by omega) (by omega)
    exact ⟨h.aligned, by omega, hapart, hroom, hroom⟩

theorem ofBuffer_eq_error {buffer : Bitmap} {e : FrameError}
    (h : flaw? pool place buffer.bytes.size = some e) : ofBuffer pool place buffer = .error e := by
  rw [ofBuffer]
  split
  · rename_i e' he
    rw [h] at he
    rw [Option.some.inj he]
  · rename_i hnone
    rw [h] at hnone
    contradiction

end FrameAllocator

namespace ResidentAllocator

open FrameAllocator

variable {pool place : Extent} {map : DirectMap} {ram : Span} {m : Memory} {storage : VirtAddr}

/-- A place that the direct map leads to is refused for what is wrong with the whole of it. -/
theorem placed_eq_error {e : FrameError} (hstorage : map.toVirt place.base = .ok storage)
    (h : flaw? pool place place.length.toNat = some e) :
    placed pool place map ram m = .ok (.error e) := by
  simp only [placed, hstorage, flaw?_min, h]

/-- Where pool and place suit each other and the place is in memory, the first bytes of it are
cleared, and the allocator there is the one that the whole place makes. -/
theorem exists_placed (h : Suitable pool place) (hstorage : map.toVirt place.base = .ok storage)
    (hreach : ∀ i < place.length.toNat, ram.covers (storage.val + i) 1 = true) :
    ∃ r : ResidentAllocator,
      placed pool place map ram m =
        .ok (.ok (r, m.clear storage.val (bitmapSize pool.frameCount))) ∧
      ofBuffer pool place (m.bitmap storage.val place.length.toNat) =
        .ok (r.whole place.length.toNat (m.clear storage.val (bitmapSize pool.frameCount))) := by
  have hflaw := suitable_iff.mpr h
  have hneeded : bitmapSize pool.frameCount ≤ place.length.toNat := h.room
  have hcovers : ram.covers storage.val (bitmapSize pool.frameCount) = true := by
    have hwhole := h.whole
    have hfirst := Span.covers_iff.mp (hreach 0 (by rw [bitmapSize] at hneeded; omega))
    have hlast := Span.covers_iff.mp (hreach (bitmapSize pool.frameCount - 1)
      (by rw [bitmapSize] at hneeded ⊢; omega))
    rw [Span.covers_iff]
    rw [bitmapSize] at hlast ⊢
    omega
  refine ⟨⟨pool, bitmapPart pool place, storage, pool.frameCount⟩, ?_, ?_⟩
  · simp only [placed, hstorage, flaw?_min, hflaw, hcovers, if_true]
  · have hcleared := Memory.clearBytes_bitmap m storage.val place.length.toNat
      (bitmapSize pool.frameCount)
    rw [← Memory.append_bitmap (m.clear _ _) storage.val hneeded] at hcleared
    rw [ofBuffer]
    split
    · rename_i e he
      rw [Memory.size_bitmap, hflaw] at he
      contradiction
    · simp only [hcleared]
      rfl

end ResidentAllocator

namespace Kernel

open FrameAllocator ResidentAllocator

variable {m : Machine} {r : ResidentAllocator} {length : ℕ}

/-- Puts operations to the allocator in memory, one after the other. -/
def useAll (uses : List Use) : Kernel (List (Option Reply)) :=
  uses.mapM fun u => onFrames u.perform

/-- A run of operations on an allocator in a buffer and one on the allocator in memory end in the
same way, and the allocator in memory is then the other one. -/
inductive EndAlike (length : ℕ) {α β : Type} (f : α → β) :
    EStateM.Result Panic FrameAllocator α → EStateM.Result Halt Machine β → Prop
  | ok {m : Machine} {r : ResidentAllocator} (x : α) (frames : m.frames = some r) :
      EndAlike length f (.ok x (r.whole length m.memory)) (.ok (f x) m)
  | error {m : Machine} {r : ResidentAllocator} (stop : Panic) (frames : m.frames = some r) :
      EndAlike length f (.error stop (r.whole length m.memory)) (.error (.panic stop) m)

theorem endAlike (hframes : m.frames = some r) (u : Use) :
    EndAlike length some (u.perform (r.whole length m.memory)) (onFrames u.perform m) := by
  have hside := u.sideBySide (r.after length m.memory) (r.load m.memory)
  rw [← whole] at hside
  generalize hlong : u.perform (r.whole length m.memory) = long at hside ⊢
  generalize hshort : u.perform (r.load m.memory) = short at hside
  simp only [onFrames, hframes, hshort]
  cases hside with
  | ok x place =>
    rw [← whole_store place]
    exact .ok (m := m.storing r _) x rfl
  | error stop place =>
    rw [← whole_store place]
    exact .error (m := m.storing r _) stop rfl

theorem endAlike_all (hframes : m.frames = some r) (uses : List Use) :
    EndAlike length (List.map some) (FrameAllocator.useAll uses (r.whole length m.memory))
      (useAll uses m) := by
  induction uses generalizing m r with
  | nil => exact .ok [] hframes
  | cons u rest ih =>
    have hfirst : EndAlike length some _ _ := endAlike hframes u
    simp only [FrameAllocator.useAll, useAll] at ih ⊢
    simp only [List.mapM_cons, bind, EStateM.bind]
    generalize u.perform (r.whole length m.memory) = plain at hfirst ⊢
    generalize onFrames u.perform m = resident at hfirst ⊢
    cases hfirst with
    | error stop frames => exact .error stop frames
    | @ok m' r' x frames =>
      have hrest := ih frames
      simp only
      generalize rest.mapM Use.perform (r'.whole length m'.memory) = plain at hrest ⊢
      generalize rest.mapM (fun u => onFrames u.perform) m' = resident at hrest ⊢
      cases hrest with
      | error stop frames => exact .error stop frames
      | ok xs frames => exact .ok (x :: xs) frames

theorem buildFrames_eq_error {pool : FramePool} {map : DirectMap} {e : FrameError}
    (h : placed pool.frames pool.bitmap map m.ram m.memory = .ok (.error e)) :
    buildFrames pool map m = .ok (.error e) m := by
  simp only [buildFrames, h]

theorem buildFrames_eq_ok {pool : FramePool} {map : DirectMap} {memory : Memory}
    (h : placed pool.frames pool.bitmap map m.ram m.memory = .ok (.ok (r, memory))) :
    buildFrames pool map m = .ok (.ok r) { m with memory } := by
  simp only [buildFrames, h]

/-- An allocator that is made in place is the one that is made of the whole bitmap region. Let the
direct map lead to the region, and its bytes be memory. If the pool is aligned and holds a frame,
does not meet the bitmap region and has bits for all its frames there, both are made: with the same
pool, bitmap region and free frames; the bytes of the bitmap are cleared in memory, and no others
are changed; and whatever is asked of the two afterwards, they give the same answers, stop the
kernel at the same place, and are the same allocator then. In all other cases both are refused for
the same reason, and the machine is left as it was. -/
theorem placement_is_construction {pool : FramePool} {map : DirectMap} {storage : VirtAddr}
    (hstorage : map.toVirt pool.bitmap.base = .ok storage)
    (hreach : ∀ i < pool.bitmap.length.toNat, m.ram.covers (storage.val + i) 1 = true) :
    (Suitable pool.frames pool.bitmap → ∃ r memory a,
      buildFrames pool map m = .ok (.ok r) { m with memory } ∧
      ofBuffer pool.frames pool.bitmap (m.memory.bitmap storage.val pool.bitmap.length.toNat) =
        .ok a ∧
      (r.region = a.region ∧ r.bitmapRegion = a.bitmapRegion ∧ r.free = a.free) ∧
      (∀ c, memory.byte c =
        if storage.val ≤ c ∧ c < storage.val + (pool.frames.frameCount + 7) / 8 then 0
        else m.memory.byte c) ∧
      ∀ m' : Machine, m'.frames = some r → m'.memory = memory → ∀ uses : List Use,
        EndAlike pool.bitmap.length.toNat (List.map some) (FrameAllocator.useAll uses a)
          (useAll uses m')) ∧
    (¬ Suitable pool.frames pool.bitmap → ∃ e,
      buildFrames pool map m = .ok (.error e) m ∧
      ofBuffer pool.frames pool.bitmap (m.memory.bitmap storage.val pool.bitmap.length.toNat) =
        .error e) := by
  constructor
  · intro hsuitable
    obtain ⟨r, hplaced, hbuffer⟩ := exists_placed (m := m.memory) hsuitable hstorage hreach
    refine ⟨r, _, _, buildFrames_eq_ok hplaced, hbuffer, ⟨rfl, rfl, rfl⟩, fun c => ?_, ?_⟩
    · exact Memory.byte_clear _ _ _ c
    · rintro m' hframes hmemory uses
      rw [← hmemory]
      exact endAlike_all hframes uses
  · intro hunsuitable
    obtain ⟨e, he⟩ := Option.ne_none_iff_exists'.mp (mt suitable_iff.mp hunsuitable)
    exact ⟨e, buildFrames_eq_error (placed_eq_error hstorage he),
      ofBuffer_eq_error (by rw [Memory.size_bitmap]; exact he)⟩

/-- A machine whose memory is full of set bits. -/
def unclearedMachine : Machine :=
  .off none (.filled fun _ => 0xff) ⟨0xffff800000000000, 0x200000⟩ 0

/-- Three frames and a half, with two bytes for their bitmap. -/
def smallPool (place : PhysAddr) : FramePool :=
  ⟨⟨⟨0x100000, by decide⟩, 0x3800⟩, ⟨place, 2⟩⟩

/-- The bitmap is in the first of the two bytes; inside the pool it is refused. -/
theorem placement_is_construction_of_three_frames :
    (∃ r memory a,
      buildFrames (smallPool ⟨0x1000, by decide⟩) ⟨0xffff800000000000⟩ unclearedMachine =
        .ok (.ok r) { unclearedMachine with memory } ∧
      r.free = a.free ∧ memory.byte 0xffff800000001000 = 0 ∧
      memory.byte 0xffff800000001001 = 0xff ∧
      EndAlike 2 (List.map some)
        (FrameAllocator.useAll [.run 0x1800, .frame, .frame, .figures] a)
        (useAll [.run 0x1800, .frame, .frame, .figures]
          { unclearedMachine with memory, frames := some r })) ∧
    ∃ e, buildFrames (smallPool ⟨0x101000, by decide⟩) ⟨0xffff800000000000⟩ unclearedMachine =
      .ok (.error e) unclearedMachine := by
  constructor
  · have hstorage : (⟨0xffff800000000000⟩ : DirectMap).toVirt
        (smallPool ⟨0x1000, by decide⟩).bitmap.base = .ok ⟨0xffff800000001000, by decide⟩ := rfl
    have hreach : ∀ i < 2, unclearedMachine.ram.covers (0xffff800000001000 + i) 1 = true := by
      decide
    obtain ⟨r, memory, a, hbuilt, -, ⟨-, -, hfree⟩, hbytes, hlater⟩ :=
      (placement_is_construction hstorage hreach).1 (suitable_iff.mp (by decide))
    exact ⟨r, memory, a, hbuilt, hfree, (hbytes _).trans (if_pos (by decide)),
      (hbytes _).trans (if_neg (by decide)), hlater _ rfl rfl _⟩
  · have hstorage : (⟨0xffff800000000000⟩ : DirectMap).toVirt
        (smallPool ⟨0x101000, by decide⟩).bitmap.base = .ok ⟨0xffff800000101000, by decide⟩ := rfl
    have hreach : ∀ i < 2, unclearedMachine.ram.covers (0xffff800000101000 + i) 1 = true := by
      decide
    obtain ⟨e, hrefused, -⟩ :=
      (placement_is_construction hstorage hreach).2 (mt suitable_iff.mpr (by decide))
    exact ⟨e, hrefused⟩

end Kernel

end KernelCore
