import KernelCore.Machine.MemoryManager
import KernelCore.Proofs.Frames.Resident
import KernelCore.Proofs.Machine.Basic
import KernelCore.Proofs.Memory.Geometry

/-!
# Setting up memory

The pool of frames and the region of its bitmap lie inside usable entries of the memory map, and the
allocator refuses a bitmap that meets the pool. So no frame that is handed out after the set-up
touches memory of another kind or the bitmap, and the set-up itself writes to the bitmap only.
-/

namespace KernelCore

namespace MapEntry

/-- Addresses of the bytes that an entry describes. -/
def bytes (e : MapEntry) : Set ℕ := Set.Ico e.base.toNat (e.base.toNat + e.length.toNat)

theorem extent_eq_ok {e : MapEntry} {r : Extent} (h : e.extent = .ok r) :
    r.base.val = e.base.toNat ∧ r.length = e.length := by
  simp only [extent, PhysAddr.ofNat, bind, Except.bind] at h
  split at h
  · contradiction
  · rename_i p hp
    split at hp
    · obtain rfl := Except.ok.inj hp
      obtain rfl := Except.ok.inj h
      exact ⟨rfl, rfl⟩
    · contradiction

/-- The extent lies inside the memory that the entry describes. -/
def Holds (e : MapEntry) (r : Extent) : Prop :=
  e.base.toNat ≤ r.base.val ∧ r.base.val + r.length.toNat ≤ e.base.toNat + e.length.toNat

theorem Holds.bytes_subset {e : MapEntry} {r : Extent} (h : e.Holds r) : r.bytes ⊆ e.bytes :=
  Set.Ico_subset_Ico h.1 h.2

theorem holds_extent {e : MapEntry} {r : Extent} (h : e.extent = .ok r) : e.Holds r := by
  obtain ⟨hbase, hlength⟩ := extent_eq_ok h
  exact ⟨hbase.ge, by rw [hbase, hlength]⟩

end MapEntry

/-- A memory map that describes usable memory once, and nothing past the physical addresses. -/
structure WellFormedMap (entries : List MapEntry) : Prop where
  apart : entries.Pairwise fun e f => e.isUsable ∨ f.isUsable → Disjoint e.bytes f.bytes
  inMemory : ∀ e ∈ entries, e.base.toNat + e.length.toNat ≤ 0x10000000000000

theorem WellFormedMap.lt {entries : List MapEntry} (h : WellFormedMap entries) :
    ∀ e ∈ entries, e.isUsable = true → ∀ x ∈ e.bytes, x < 0x10000000000000 := by
  intro e he _ x hx
  exact lt_of_lt_of_le hx.2 (h.inMemory e he)

theorem WellFormedMap.disjoint {entries : List MapEntry} (h : WellFormedMap entries)
    {e f : MapEntry} (he : e ∈ entries) (hf : f ∈ entries) (husable : e.isUsable = true)
    (hother : ¬ f.isUsable = true) : Disjoint e.bytes f.bytes := by
  have hsymm : Std.Symm fun e f : MapEntry =>
      e.isUsable ∨ f.isUsable → Disjoint e.bytes f.bytes := by
    constructor
    intro e f hef hu
    exact (hef hu.symm).symm
  have hne : e ≠ f := by
    intro hsame
    exact hother (hsame ▸ husable)
  exact h.apart.forall he hf hne (.inl husable)

namespace FramePool

variable {entries : List MapEntry} {pool : FramePool}

theorem lift_bind_eq_ok {ε α β : Type} {x : Except Panic α}
    {f : α → ExceptT ε (Except Panic) β} {b : β} :
    (liftM x >>= f : ExceptT ε (Except Panic) β) = .ok (.ok b) ↔
      ∃ a, x = .ok a ∧ f a = .ok (.ok b) := by
  cases x with
  | error stop => exact ⟨fun h => by contradiction, fun ⟨_, h, _⟩ => by contradiction⟩
  | ok a => exact ⟨fun h => ⟨a, rfl, h⟩, fun ⟨_, rfl, h⟩ => h⟩

/-- What is carved off stays inside the extent, and so does what is left of it. -/
theorem carve_eq_ok {e : MapEntry} {whole : Extent} {needed : ℕ} (hwhole : e.Holds whole)
    (hend : e.base.toNat + e.length.toNat ≤ 0x10000000000000)
    (h : carve whole needed = .ok (.ok pool)) : e.Holds pool.frames ∧ e.Holds pool.bitmap := by
  obtain ⟨hlow, hhigh⟩ := hwhole
  have hcount : whole.frameCount * 4096 ≤ whole.length.toNat := Nat.div_mul_le_self _ _
  simp only [carve] at h
  split at h
  · cases h
  · rename_i hroom
    obtain ⟨base, hbase, h⟩ := lift_bind_eq_ok.mp h
    obtain rfl := Except.ok.inj (Except.ok.inj h)
    have hleft : (UInt64.ofNat ((whole.frameCount - (needed + 4095) / 4096) * 4096)).toNat =
        (whole.frameCount - (needed + 4095) / 4096) * 4096 := by
      rw [UInt64.toNat_ofNat', Nat.mod_eq_of_lt (by omega)]
    have hcarved : (UInt64.ofNat ((needed + 4095) / 4096 * 4096)).toNat =
        (needed + 4095) / 4096 * 4096 := by
      rw [UInt64.toNat_ofNat', Nat.mod_eq_of_lt (by omega)]
    rw [PhysAddr.ofNat] at hbase
    split at hbase
    · obtain rfl := Except.ok.inj hbase
      simp only [MapEntry.Holds, Extent.stop, hleft, hcarved]
      omega
    · contradiction

/-- Pool and bitmap each lie inside a usable entry. -/
theorem ofEntries_eq_ok
    (hmemory : ∀ e ∈ entries, e.isUsable = true → ∀ x ∈ e.bytes, x < 0x10000000000000)
    (h : ofEntries entries = .ok (.ok pool)) :
    (∃ e ∈ entries, e.isUsable = true ∧ e.Holds pool.frames) ∧
      ∃ e ∈ entries, e.isUsable = true ∧ e.Holds pool.bitmap := by
  have husable : ∀ r ∈ entries.zipIdx.filter (·.1.isUsable),
      r.1 ∈ entries ∧ r.1.isUsable = true := by
    intro r hr
    obtain ⟨hmem, hu⟩ := List.mem_filter.mp hr
    exact ⟨List.fst_mem_of_mem_zipIdx hmem, hu⟩
  simp only [ofEntries] at h
  split at h
  · cases h
  · rename_i entry index hlongest
    obtain ⟨hmem, hu⟩ := husable _ (longest?_mem hlongest)
    obtain ⟨frames, hframes, h⟩ := lift_bind_eq_ok.mp h
    have hholds := MapEntry.holds_extent hframes
    split at h
    · rename_i other _ hother
      obtain ⟨hmem', hu'⟩ := husable _ (List.mem_filter.mp (longest?_mem hother)).1
      obtain ⟨bitmap, hbitmap, h⟩ := lift_bind_eq_ok.mp h
      obtain rfl := Except.ok.inj (Except.ok.inj h)
      exact ⟨⟨entry, hmem, hu, hholds⟩, ⟨other, hmem', hu', MapEntry.holds_extent hbitmap⟩⟩
    · have hend : entry.base.toNat + entry.length.toNat ≤ 0x10000000000000 := by
        have hbase := (MapEntry.extent_eq_ok hframes).1
        have hlt := frames.base.lt
        by_cases hempty : entry.length.toNat = 0
        · omega
        · have hlast := hmemory entry hmem hu (entry.base.toNat + entry.length.toNat - 1)
            ⟨by omega, by omega⟩
          omega
      obtain ⟨hpool, hbitmap⟩ := carve_eq_ok hholds hend h
      exact ⟨⟨entry, hmem, hu, hpool⟩, ⟨entry, hmem, hu, hbitmap⟩⟩

end FramePool

namespace ResidentAllocator

open FrameAllocator

theorem bytes_clear (m : Memory) (a n : ℕ) : (m.clear a n).bytes a n = List.replicate n 0 := by
  apply List.ext_getElem
  · simp
  · intro i h₁ h₂
    have hlt : i < n := by simpa using h₁
    simp [Memory.bytes, Memory.byte_clear, hlt]

/-- An allocator that is placed in memory is a new one over the bytes that were there. -/
theorem placed_eq_ok {region bitmapRegion : Extent} {map : DirectMap} {ram : Span} {m m' : Memory}
    {r : ResidentAllocator} (h : placed region bitmapRegion map ram m = .ok (.ok (r, m'))) :
    map.toVirt bitmapRegion.base = .ok r.storage ∧ r.region = region ∧
      m' = m.clear r.storage.val r.size ∧ ram.covers r.storage.val r.size = true ∧
      ∃ buffer, ofBuffer region bitmapRegion buffer = .ok (r.load m') := by
  rw [placed] at h
  split at h
  · contradiction
  · rename_i storage hstorage
    simp only at h
    split at h
    · simp at h
    · rename_i hflaw
      split at h
      · rename_i hcovers
        obtain ⟨rfl, rfl⟩ := Prod.mk.inj (Except.ok.inj (Except.ok.inj h))
        let buffer : Bitmap := ⟨(m.bytes storage.val (bitmapSize region.frameCount)).toArray⟩
        have hsize : buffer.bytes.size = bitmapSize region.frameCount := by simp [buffer]
        have hbuffer : flaw? region bitmapRegion buffer.bytes.size = none := by
          obtain ⟨haligned, hframes, hapart, hlength, -⟩ := flaw?_eq_none_iff.mp hflaw
          exact flaw?_eq_none_iff.mpr ⟨haligned, hframes, hapart, hlength, hsize.ge⟩
        have hcleared : buffer.clearBytes (bitmapSize region.frameCount) =
            ⟨((m.clear storage.val (bitmapSize region.frameCount)).bytes storage.val
              (bitmapSize region.frameCount)).toArray⟩ := by
          rw [bytes_clear, Bitmap.clearBytes, Bitmap.mk.injEq]
          apply Array.ext
          · simp [hsize]
          · intro i h₁ h₂
            have hlt : i < bitmapSize region.frameCount := by simpa using h₂
            simp [hlt]
        refine ⟨hstorage, rfl, rfl, hcovers, buffer, ?_⟩
        rw [ofBuffer]
        split
        · rename_i e he
          rw [hbuffer] at he
          contradiction
        · simp only [load, size, hcleared]
      · contradiction

end ResidentAllocator

namespace Kernel

variable {ε α β : Type} {m m' : Machine}

theorem lift_bind_ok {x : Kernel α} {f : α → ExceptT ε Kernel β} {a : α} (h : x m = .ok a m') :
    (liftM x >>= f : ExceptT ε Kernel β) m = f a m' := by
  simp only [liftM, monadLift, MonadLift.monadLift, ExceptT.lift, bind, ExceptT.bind, ExceptT.mk,
    EStateM.bind, Functor.map, EStateM.map, h, ExceptT.bindCont]

theorem lift_bind_error {x : Kernel α} {f : α → ExceptT ε Kernel β} {halt : Halt}
    (h : x m = .error halt m') :
    (liftM x >>= f : ExceptT ε Kernel β) m = .error halt m' := by
  simp only [liftM, monadLift, MonadLift.monadLift, ExceptT.lift, bind, ExceptT.bind, ExceptT.mk,
    EStateM.bind, Functor.map, EStateM.map, h]

/-- How setting up memory can end. Memory is written only where it succeeds. -/
inductive SetUp (entries : List MapEntry) (m : Machine) :
    EStateM.Result Halt Machine (Except MemoryError MemoryTotals) → Prop
  | stopped {halt : Halt} {m' : Machine} (memory : m'.memory = m.memory) :
      SetUp entries m (.error halt m')
  | refused {e : MemoryError} {m' : Machine} (memory : m'.memory = m.memory) :
      SetUp entries m (.ok (.error e) m')
  | done {totals : MemoryTotals} {m' : Machine} {pool : FramePool} {map : DirectMap}
      {r : ResidentAllocator} (chosen : FramePool.ofEntries entries = .ok (.ok pool))
      (directMap : m'.directMap = some map) (mapper : m'.mapper = some map)
      (placed : ResidentAllocator.placed pool.frames pool.bitmap map m.ram m.memory =
        .ok (.ok (r, m'.memory)))
      (frames : m'.frames = some r) (ram : m'.ram = m.ram)
      (processor : m'.processor = m.processor) : SetUp entries m (.ok (.ok totals) m')

theorem directMapOf_eq_ok (offset : UInt64) (m : Machine) : ∃ map,
    directMapOf offset m = .ok map { m with directMap := some map } := by
  obtain ⟨console, events, memory, ram, processor, efer, directMap, frames, mapper, scheduler⟩ := m
  cases directMap with
  | none => exact ⟨⟨offset⟩, rfl⟩
  | some map => exact ⟨map, rfl⟩

theorem setUpMemory_cases (entries : List MapEntry) (offset : UInt64) (m : Machine) :
    SetUp entries m (setUpMemory entries offset m) := by
  rw [setUpMemory]
  cases htotals : MemoryTotals.ofEntries entries with
  | error stop =>
    rw [lift_bind_error (checked_error stop m)]
    exact .stopped rfl
  | ok totals =>
    rw [lift_bind_ok (checked_ok totals m)]
    cases hchosen : FramePool.ofEntries entries with
    | error stop =>
      rw [ExceptT.run, lift_bind_error (checked_error stop m)]
      exact .stopped rfl
    | ok choice =>
      rw [ExceptT.run, lift_bind_ok (checked_ok choice m)]
      cases choice with
      | error e => exact .refused rfl
      | ok pool =>
        obtain ⟨map, hmap⟩ := directMapOf_eq_ok offset m
        simp only [lift_bind_ok hmap]
        let m₁ : Machine := { m with directMap := some map }
        cases hplaced : ResidentAllocator.placed pool.frames pool.bitmap map m.ram m.memory with
        | error halt =>
          have hbuild : buildFrames pool map m₁ = .error halt m₁ := by
            simp only [buildFrames, m₁, hplaced]
          rw [lift_bind_error hbuild]
          exact .stopped rfl
        | ok built =>
          cases built with
          | error e =>
            have hbuild : buildFrames pool map m₁ = .ok (.error e) m₁ := by
              simp only [buildFrames, m₁, hplaced]
            rw [lift_bind_ok hbuild]
            exact .refused rfl
          | ok placed =>
            obtain ⟨r, memory⟩ := placed
            have hbuild : buildFrames pool map m₁ = .ok (.ok r) { m₁ with memory } := by
              simp only [buildFrames, m₁, hplaced]
            rw [lift_bind_ok hbuild]
            change SetUp entries m (.ok (.ok totals) _)
            exact .done hchosen rfl rfl hplaced rfl rfl rfl

/-- After the set-up the kernel lends the frames of a new allocator over the pool. -/
theorem lends_of_placed {pool : FramePool}
    (hend : pool.frames.base.val + pool.frames.length.toNat ≤ 0x10000000000000) {map : DirectMap}
    {r : ResidentAllocator} {memory : Memory}
    (hplaced : ResidentAllocator.placed pool.frames pool.bitmap map m.ram memory =
      .ok (.ok (r, m'.memory)))
    (hframes : m'.frames = some r) :
    Machine.Lends m' r (r.load m'.memory) ∧ ∃ buffer,
      FrameAllocator.ofBuffer pool.frames pool.bitmap buffer = .ok (r.load m'.memory) := by
  obtain ⟨-, -, -, -, buffer, hnew⟩ := ResidentAllocator.placed_eq_ok hplaced
  have hregion := (FrameAllocator.ofBuffer_eq_ok hnew).2.1
  have hstop := (r.load m'.memory).startOf_total_le
  rw [hregion] at hstop
  exact ⟨⟨hframes, rfl, FrameAllocator.sound_ofBuffer hnew (by omega)⟩, buffer, hnew⟩

/-- Only usable memory is ever handed out. Whatever the memory map, with usable memory described
once and nothing past the physical addresses, setting up memory writes no byte outside the bitmap of
the pool that is chosen. If it succeeds, then whatever is asked of the frame allocator later never
stops the kernel, and each frame that is handed out lies inside one usable entry of the map, away
from the bytes of the bitmap and from every entry of another kind. -/
theorem only_usable_memory_is_lent {entries : List MapEntry} (hmap : WellFormedMap entries)
    (offset : UInt64) (m : Machine) :
    (∀ c, (after (setUpMemory entries offset) m).memory.byte c ≠ m.memory.byte c →
      ∃ pool map storage, FramePool.ofEntries entries = .ok (.ok pool) ∧
        (after (setUpMemory entries offset) m).directMap = some map ∧
        map.toVirt pool.bitmap.base = .ok storage ∧
        storage.val ≤ c ∧ c < storage.val + bitmapSize pool.frames.frameCount) ∧
    ∀ totals m', setUpMemory entries offset m = .ok (.ok totals) m' →
      ∃ pool, FramePool.ofEntries entries = .ok (.ok pool) ∧
        ∀ requests, ∃ granted m'', serveAll requests m' = .ok granted m'' ∧
          ∀ x ∈ granted,
            (∃ e ∈ entries, e.isUsable = true ∧ Set.Ico x (x + 4096) ⊆ e.bytes) ∧
            Disjoint (Set.Ico x (x + 4096)) (Set.Ico pool.bitmap.base.val
              (pool.bitmap.base.val + bitmapSize pool.frames.frameCount)) ∧
            ∀ e ∈ entries, ¬ e.isUsable = true → Disjoint (Set.Ico x (x + 4096)) e.bytes := by
  have hcases := setUpMemory_cases entries offset m
  refine ⟨fun c hc => ?_, fun totals m' hok => ?_⟩
  · rw [after] at hc ⊢
    generalize setUpMemory entries offset m = result at hcases hc
    cases hcases with
    | stopped memory => exact absurd (congrArg (·.byte c) memory) hc
    | refused memory => exact absurd (congrArg (·.byte c) memory) hc
    | done chosen directMap mapper placed frames ram processor =>
      obtain ⟨hstorage, hregion, hcleared, -, -⟩ := ResidentAllocator.placed_eq_ok placed
      refine ⟨_, _, _, chosen, directMap, hstorage, ?_⟩
      rw [ResidentAllocator.size, hregion] at hcleared
      simp only [hcleared, Memory.byte_clear] at hc
      apply Decidable.byContradiction
      intro hout
      rw [if_neg hout] at hc
      exact hc rfl
  · rw [hok] at hcases
    cases hcases with
    | done chosen directMap mapper placed frames ram processor =>
      rename_i pool map r
      obtain ⟨⟨e, he, husable, hlow, hhigh⟩, -⟩ := FramePool.ofEntries_eq_ok hmap.lt chosen
      have hmemory := hmap.inMemory e he
      obtain ⟨hlends, buffer, hnew⟩ := lends_of_placed (by omega) placed frames
      obtain ⟨hflaw, hregion, hbitmap, -⟩ := FrameAllocator.ofBuffer_eq_ok hnew
      generalize r.load m'.memory = a at hlends hnew hregion hbitmap
      refine ⟨pool, chosen, fun requests => ?_⟩
      obtain ⟨granted, m'', hrun, hpool⟩ := serveAll_eq_ok hlends requests
      refine ⟨granted, m'', hrun, fun x hx => ?_⟩
      obtain ⟨i, hi, rfl⟩ := hpool x hx
      have hbase : pool.frames.base.val ≤ a.startOf i := by
        rw [FrameAllocator.startOf, hregion]
        omega
      have hstop := FrameAllocator.startOf_add_le_stop hi
      rw [hregion] at hstop
      have hinside : Set.Ico (a.startOf i) (a.startOf i + 4096) ⊆ e.bytes :=
        Set.Ico_subset_Ico (by omega) (by omega)
      have hapart := FrameAllocator.startOf_disjoint_bitmap hnew (by omega) hi
      rw [hbitmap, FrameAllocator.length_bitmapPart hflaw] at hapart
      have hsame :
          (FrameAllocator.bitmapPart pool.frames pool.bitmap).base = pool.bitmap.base := rfl
      rw [hsame] at hapart
      refine ⟨⟨e, he, husable, hinside⟩, ?_, fun f hf hother => ?_⟩
      · rw [Set.Ico_disjoint_Ico]
        omega
      · exact (hmap.disjoint he hf husable hother).mono_left hinside

/-- A reserved entry lies between the pool and the shorter entry that takes the bitmap. -/
theorem only_usable_memory_is_lent_three_entries :
    ∃ totals m', setUpMemory [⟨0x1000, 0x1000, .usable⟩, ⟨0x2000, 0x6000, .reserved⟩,
        ⟨0x8000, 0x4000, .usable⟩] 0xffff800000000000
        (.off none .zeroed ⟨0xffff800000000000, 0x10000⟩ 0x3000) = .ok (.ok totals) m' ∧
      ∃ granted m'', serveAll [.run 5000, .free ⟨0x8000, by decide⟩, .frame] m' = .ok granted m'' ∧
        ∀ x ∈ granted, Disjoint (Set.Ico x (x + 4096)) (Set.Ico 0x2000 0x8000) := by
  have hmap : WellFormedMap [⟨0x1000, 0x1000, .usable⟩, ⟨0x2000, 0x6000, .reserved⟩,
      ⟨0x8000, 0x4000, .usable⟩] := by
    constructor
    · simp [MapEntry.bytes, Set.Ico_disjoint_Ico]
    · decide
  refine ⟨_, _, rfl, ?_⟩
  obtain ⟨-, hlent⟩ := only_usable_memory_is_lent hmap 0xffff800000000000
    (.off none .zeroed ⟨0xffff800000000000, 0x10000⟩ 0x3000)
  obtain ⟨pool, -, hrequests⟩ := hlent _ _ rfl
  obtain ⟨granted, m'', hrun, hall⟩ := hrequests [.run 5000, .free ⟨0x8000, by decide⟩, .frame]
  refine ⟨granted, m'', hrun, fun x hx => ?_⟩
  obtain ⟨-, -, hapart⟩ := hall x hx
  exact hapart ⟨0x2000, 0x6000, .reserved⟩ (by simp) (by decide)

end Kernel

end KernelCore
