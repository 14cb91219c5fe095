import KernelCore.Proofs.Frames.Resident
import KernelCore.Proofs.Memory.Aliases

/-!
# Who holds which frame

Page tables, the allocator's bitmap and the frames of clients share one memory. A `Holding` is a
machine with the ledger of the frames that are out, and with the facts that keep the three apart:
every table of the loaded hierarchy lies outside the bitmap, and if it is a frame of the pool, the
mapper took it. No frame is a table at two depths, so a leaf that is written never counts as a link.
-/

namespace KernelCore

namespace Machine

/-- The frame `f` is a table of the loaded hierarchy, `d` links below the top table. -/
inductive TableAt (m : Machine) : ℕ → Frame → Prop
  | top : TableAt m 0 m.topTable
  | link {d : ℕ} {f : Frame} {i : TableIndex} {e : Entry} (above : TableAt m d f) (upper : d < 3)
      (read : m.readEntry f i = .ok (some e)) (present : e.isPresent = true)
      (small : e.isHuge = false) : TableAt m (d + 1) (.containing e.address)

variable {m m' : Machine} {d e : ℕ} {f g t : Frame} {i : TableIndex}

theorem Touches.topTable_eq {map : DirectMap} (h : Touches map t m m') :
    m'.topTable = m.topTable := by
  simp only [topTable, h.processor]

/-- Tables stay where they are if the links to them do. -/
theorem TableAt.mono (htop : m'.topTable = m.topTable)
    (hread : ∀ d f i e, m.TableAt d f → m'.TableAt d f → d < 3 → m.readEntry f i = .ok (some e) →
      e.isPresent = true → e.isHuge = false → m'.readEntry f i = .ok (some e))
    (h : m.TableAt d f) : m'.TableAt d f := by
  induction h with
  | top =>
    rw [← htop]
    exact .top
  | link above upper read present small ih =>
    exact .link ih upper (hread _ _ _ _ above ih upper read present small) present small

theorem tableAt_congr (htop : m'.topTable = m.topTable)
    (hread : ∀ d f i, m.TableAt d f → m'.readEntry f i = m.readEntry f i) :
    m'.TableAt d f ↔ m.TableAt d f := by
  constructor
  · intro h
    apply h.mono htop.symm
    intro d f i e _ hf _ he _ _
    rw [← hread d f i hf, he]
  · intro h
    apply h.mono htop
    intro d f i e hf _ _ he _ _
    rw [hread d f i hf, he]

end Machine

namespace FrameAllocator

/-- Start addresses of frames. -/
def addresses (fs : List Frame) : Set ℕ := {x | ∃ f ∈ fs, f.base.val = x}

/-- From the allocator `a` one comes to `b` by asking for the frames `fs`, one after the other. -/
inductive HandsOut : FrameAllocator → List Frame → FrameAllocator → Prop
  | nil (a : FrameAllocator) : HandsOut a [] a
  | cons {a b c : FrameAllocator} {f : Frame} {fs : List Frame}
      (first : allocateFrame a = .ok (some f) b) (rest : HandsOut b fs c) : HandsOut a (f :: fs) c

variable {a b c : FrameAllocator} {fs gs : List Frame}

theorem HandsOut.eq_of_nil (h : HandsOut a [] b) : b = a := by
  cases h
  rfl

theorem HandsOut.append (h : HandsOut a fs b) (h' : HandsOut b gs c) : HandsOut a (fs ++ gs) c := by
  induction h with
  | nil => exact h'
  | cons first rest ih => exact .cons first (ih h')

theorem addresses_append : addresses (fs ++ gs) = addresses fs ∪ addresses gs := by
  ext x
  simp only [addresses, List.mem_append, Set.mem_union, Set.mem_ofPred_eq, or_and_right,
    exists_or]

/-- The frames that are handed out were free, and they are out afterwards. -/
theorem HandsOut.lent (h : HandsOut a fs b) (ha : Sound a) :
    Sound b ∧ SamePlace a b ∧ b.lent = a.lent ∪ addresses fs ∧ Disjoint a.lent (addresses fs) := by
  induction h with
  | nil a => 
    refine ⟨ha, .refl a, ?_, ?_⟩
    · simp [addresses]
    · simp [addresses]
  | @cons a b c f fs first rest ih =>
    rcases allocateFrame_cases ha with ⟨hnone, -⟩ | ⟨g, i, hsome, hi, hfree, hbase⟩
    · rw [hnone] at first
      simp at first
    · obtain ⟨hg, rfl⟩ := EStateM.Result.ok.inj (hsome.symm.trans first)
      obtain rfl := Option.some.inj hg
      obtain ⟨hc, hplace, hlent, hapart⟩ := ih (ha.take i)
      have hcons : addresses (g :: fs) = insert g.base.val (addresses fs) := by
        ext x
        simp [addresses, eq_comm]
      rw [lent_take hi, ← hbase] at hlent hapart
      refine ⟨hc, (samePlace_take a i).trans hplace, ?_, ?_⟩
      · rw [hlent, hcons, Set.insert_union, Set.union_insert]
      · rw [hcons, Set.disjoint_insert_right]
        refine ⟨?_, hapart.mono_left (Set.subset_insert _ _)⟩
        rw [hbase, startOf_mem_lent, hfree]
        exact Bool.false_ne_true

end FrameAllocator

open FrameAllocator Machine

/-- Where things lie in memory: the pool of frames, and the bytes of its bitmap. -/
structure Layout where
  map : DirectMap
  ram : Set ℕ
  pool : Extent
  bitmap : Extent
  poolInRam : ∀ i < pool.frameCount,
    Set.Ico (pool.base.val + i * 4096) (pool.base.val + i * 4096 + 4096) ⊆ ram
  bitmapInRam : Set.Ico bitmap.base.val (bitmap.base.val + bitmap.length.toNat) ⊆ ram
  apart : ∀ i < pool.frameCount,
    Disjoint (Set.Ico (pool.base.val + i * 4096) (pool.base.val + i * 4096 + 4096))
      (Set.Ico bitmap.base.val (bitmap.base.val + bitmap.length.toNat))

namespace Layout

/-- Addresses of the bytes of the bitmap. -/
def bitmapBytes (L : Layout) : Set ℕ :=
  Set.Ico L.bitmap.base.val (L.bitmap.base.val + L.bitmap.length.toNat)

/-- A frame of the pool starts at `x`. -/
def IsFrame (L : Layout) (x : ℕ) : Prop := ∃ i < L.pool.frameCount, x = L.pool.base.val + i * 4096

variable {L : Layout} {f : Frame}

theorem IsFrame.bytes_subset (h : L.IsFrame f.base.val) : f.bytes ⊆ L.ram := by
  obtain ⟨i, hi, hf⟩ := h
  rw [Frame.bytes, hf]
  exact L.poolInRam i hi

theorem IsFrame.disjoint (h : L.IsFrame f.base.val) : Disjoint f.bytes L.bitmapBytes := by
  obtain ⟨i, hi, hf⟩ := h
  rw [Frame.bytes, hf]
  exact L.apart i hi

end Layout

/-- Addresses of the bytes of frames that start at the given addresses. -/
def bytesOf (starts : Set ℕ) : Set ℕ := {x | ∃ y ∈ starts, x ∈ Set.Ico y (y + 4096)}

/-- A machine with the ledger of the frames that are out, those that clients hold and those that the
mapper made into tables. -/
structure Holding (L : Layout) where
  machine : Machine
  resident : ResidentAllocator
  held : Set ℕ
  made : Set ℕ
  lends : machine.Lends resident (resident.load machine.memory)
  region : resident.region = L.pool
  storage : resident.storage.val = L.map.place L.bitmap.base.val
  size : resident.size = L.bitmap.length.toNat
  sees : machine.Sees L.map L.ram
  ledger : (resident.load machine.memory).lent = held ∪ made
  apart : Disjoint held made
  tables : ∀ d f, machine.TableAt d f → f.bytes ⊆ L.ram ∧ Disjoint f.bytes L.bitmapBytes ∧
    (L.IsFrame f.base.val → f.base.val ∈ made)
  graded : ∀ d e f, machine.TableAt d f → machine.TableAt e f → d = e

namespace Holding

variable {L : Layout} (s : Holding L)

/-- The allocator, as it is loaded from memory. -/
def allocator : FrameAllocator := s.resident.load s.machine.memory

theorem sound : Sound s.allocator := s.lends.sound

theorem isFrame_of_lent {x : ℕ} (hx : x ∈ s.allocator.lent) : L.IsFrame x := by
  obtain ⟨i, hi, rfl⟩ := hx
  refine ⟨i, ?_, ?_⟩
  · rw [← s.region]
    exact isTaken_lt hi
  · rw [← s.region]
    rfl

theorem isFrame_of_held {x : ℕ} (hx : x ∈ s.held) : L.IsFrame x := by
  apply s.isFrame_of_lent
  rw [allocator, s.ledger]
  exact .inl hx

/-- No client holds a table. -/
theorem notMem_held {d : ℕ} {f : Frame} (h : s.machine.TableAt d f) : f.base.val ∉ s.held := by
  intro hheld
  have hmade := (s.tables d f h).2.2 (s.isFrame_of_held hheld)
  exact Set.disjoint_left.mp s.apart hheld hmade

/-- No table is free. -/
theorem mem_lent_of_table {d : ℕ} {f : Frame} (h : s.machine.TableAt d f)
    (hf : L.IsFrame f.base.val) : f.base.val ∈ s.allocator.lent := by
  rw [allocator, s.ledger]
  exact .inr ((s.tables d f h).2.2 hf)

theorem heldBytes_subset : bytesOf s.held ⊆ L.ram := by
  rintro x ⟨y, hy, hx⟩
  obtain ⟨i, hi, rfl⟩ := s.isFrame_of_held hy
  exact L.poolInRam i hi hx

/-- The bytes of a frame that no client holds are nobody's. -/
theorem notMem_heldBytes {f : Frame} (hf : f.base.val ∉ s.held) {x : ℕ} (hx : x ∈ bytesOf s.held) :
    x ∉ f.bytes := by
  intro hxf
  obtain ⟨y, hy, hxy⟩ := hx
  have haligned := s.sound.aligned
  obtain ⟨i, -, hi⟩ := s.isFrame_of_held hy
  have hregion : s.allocator.region = L.pool := s.region
  rw [hregion] at haligned
  have hsame : f.base.val = y := by
    simp only [Frame.bytes, Frame.base, Set.mem_Ico] at hxf hxy ⊢
    omega
  exact hf (hsame ▸ hy)

theorem held_disjoint_bitmap {x : ℕ} (hx : x ∈ bytesOf s.held) : x ∉ L.bitmapBytes := by
  obtain ⟨y, hy, hxy⟩ := hx
  obtain ⟨i, hi, rfl⟩ := s.isFrame_of_held hy
  exact Set.disjoint_left.mp (L.apart i hi) hxy

/-! ## Changes to the allocator -/

variable {b : FrameAllocator}

theorem physical_storing (hplace : SamePlace s.allocator b) {x : ℕ} (hx : x ∈ L.ram)
    (hout : x ∉ L.bitmapBytes) :
    (s.machine.storing s.resident b).physical L.map x = s.machine.physical L.map x := by
  apply s.sees.physical_eq L.bitmapInRam _ hx hout
  intro c hc
  rw [← s.storage, ← s.size] at hc
  exact s.lends.byte_storing hplace hc

theorem sees_storing (b : FrameAllocator) :
    (s.machine.storing s.resident b).Sees L.map L.ram := ⟨s.sees.mapper, s.sees.reaches⟩

theorem readEntry_storing (hplace : SamePlace s.allocator b) {d : ℕ} {f : Frame}
    (hf : s.machine.TableAt d f) (i : TableIndex) :
    (s.machine.storing s.resident b).readEntry f i = s.machine.readEntry f i := by
  obtain ⟨hram, hapart, -⟩ := s.tables d f hf
  apply s.sees.readEntry_congr (s.sees_storing b) hram
  intro x hx
  exact s.physical_storing hplace (hram hx) (Set.disjoint_left.mp hapart hx)

theorem tableAt_storing (hplace : SamePlace s.allocator b) {d : ℕ} {f : Frame} :
    (s.machine.storing s.resident b).TableAt d f ↔ s.machine.TableAt d f :=
  tableAt_congr rfl fun _ _ i hf => s.readEntry_storing hplace hf i

/-- The ledger after the allocator changed, with nothing taken from the mapper. -/
def storing (hplace : SamePlace s.allocator b) (hsound : Sound b) (held made : Set ℕ)
    (hledger : b.lent = held ∪ made) (hapart : Disjoint held made) (hmade : s.made ⊆ made) :
    Holding L where
  machine := s.machine.storing s.resident b
  resident := (s.resident.store b s.machine.memory).1
  held := held
  made := made
  lends := by
    have hlends := s.lends.storing hplace hsound
    rw [hlends.load]
    exact hlends
  region := s.region
  storage := s.storage
  size := s.size
  sees := s.sees_storing b
  ledger := by
    rw [(s.lends.storing hplace hsound).load]
    exact hledger
  apart := hapart
  tables := by
    intro d f hf
    rw [s.tableAt_storing hplace] at hf
    obtain ⟨hram, hbitmap, hpool⟩ := s.tables d f hf
    exact ⟨hram, hbitmap, fun h => hmade (hpool h)⟩
  graded := by
    intro d e f hd he
    rw [s.tableAt_storing hplace] at hd he
    exact s.graded d e f hd he

theorem allocator_storing (hplace : SamePlace s.allocator b) (hsound : Sound b)
    {held made : Set ℕ} (hledger : b.lent = held ∪ made) (hapart : Disjoint held made)
    (hmade : s.made ⊆ made) :
    (s.storing hplace hsound held made hledger hapart hmade).allocator = b :=
  (s.lends.storing hplace hsound).load

/-! ## Changes to a table -/

variable {m' : Machine} {t : Frame}

theorem load_touches (h : Touches L.map t s.machine m') (ht : t.bytes ⊆ L.ram)
    (hb : Disjoint t.bytes L.bitmapBytes) :
    s.resident.load m'.memory = s.resident.load s.machine.memory := by
  apply ResidentAllocator.load_congr
  intro c h₁ h₂
  rw [s.storage] at h₁ h₂
  rw [s.size] at h₂
  obtain ⟨k, rfl⟩ : ∃ k, c = L.map.place L.bitmap.base.val + k :=
    ⟨c - L.map.place L.bitmap.base.val, by omega⟩
  have hk : k < L.bitmap.length.toNat := by omega
  have hmem : L.bitmap.base.val + k ∈ L.bitmapBytes := ⟨by omega, by omega⟩
  have hbyte := s.sees.physical_eq ht h.outside (L.bitmapInRam hmem)
    (Set.disjoint_right.mp hb hmem)
  rw [Machine.physical, Machine.physical, s.sees.reaches.place_add L.bitmapInRam hk] at hbyte
  exact hbyte

/-- The ledger after a frame outside the bitmap was written, if tables are still where they may be. -/
def touching (h : Touches L.map t s.machine m') (ht : t.bytes ⊆ L.ram)
    (hb : Disjoint t.bytes L.bitmapBytes)
    (tables : ∀ d f, m'.TableAt d f → f.bytes ⊆ L.ram ∧ Disjoint f.bytes L.bitmapBytes ∧
      (L.IsFrame f.base.val → f.base.val ∈ s.made))
    (graded : ∀ d e f, m'.TableAt d f → m'.TableAt e f → d = e) : Holding L where
  machine := m'
  resident := s.resident
  held := s.held
  made := s.made
  lends := by
    rw [s.load_touches h ht hb]
    exact ⟨h.frames.trans s.lends.frames, s.load_touches h ht hb, s.lends.sound⟩
  region := s.region
  storage := s.storage
  size := s.size
  sees := h.sees s.sees
  ledger := by
    rw [s.load_touches h ht hb]
    exact s.ledger
  apart := s.apart
  tables := tables
  graded := graded

/-- Writing to a frame that is no table leaves all tables as they are. -/
theorem tableAt_touches (h : Touches L.map t s.machine m') (ht : t.bytes ⊆ L.ram)
    (hnot : ∀ d, ¬ s.machine.TableAt d t) {d : ℕ} {f : Frame} :
    m'.TableAt d f ↔ s.machine.TableAt d f := by
  apply tableAt_congr h.topTable_eq
  intro d f i hf
  apply h.readEntry_of_ne s.sees ht (s.tables d f hf).1
  rintro rfl
  exact hnot d hf

/-- A table of the last level has no links, so writing to it makes no table. -/
theorem tableAt_of_touches_last (h : Touches L.map t s.machine m') (ht : s.machine.TableAt 3 t)
    {d : ℕ} {f : Frame} (hf : m'.TableAt d f) : s.machine.TableAt d f := by
  apply hf.mono h.topTable_eq.symm
  intro d f i e _ hf hlt he _ _
  have hne : f ≠ t := by
    rintro rfl
    have := s.graded d 3 f hf ht
    omega
  rw [← he]
  exact (h.readEntry_of_ne s.sees (s.tables 3 t ht).1 (s.tables d f hf).1 hne i).symm

section Link

variable {g : Frame} {d : ℕ} {i : TableIndex} (h : Touches L.map t s.machine m')
  (ht : s.machine.TableAt d t)
  (hread : ∀ j, m'.readEntry t j = if j = i then .ok (some (.link g))
    else s.machine.readEntry t j)

include h ht hread

/-- A link to an empty table makes one table, below the one that links to it. -/
theorem tableAt_of_link (hnew : ∀ d, ¬ s.machine.TableAt d g)
    (hempty : ∀ j, s.machine.readEntry g j = .ok (some .absent)) (hg : g.bytes ⊆ L.ram)
    {e : ℕ} {f : Frame} (hf : m'.TableAt e f) :
    s.machine.TableAt e f ∨ e = d + 1 ∧ f = g := by
  have hram := (s.tables d t ht).1
  have htg : g ≠ t := by
    rintro rfl
    exact hnew d ht
  induction hf with
  | top =>
    rw [h.topTable_eq]
    exact .inl .top
  | @link e f j entry above upper read present small ih =>
    cases ih with
    | inr hnewTable =>
      obtain ⟨-, rfl⟩ := hnewTable
      rw [h.readEntry_of_ne s.sees hram hg htg, hempty] at read
      obtain rfl := Option.some.inj (Except.ok.inj read)
      contradiction
    | inl hold =>
      by_cases hft : f = t
      · subst hft
        rw [hread] at read
        split at read
        · obtain rfl := Option.some.inj (Except.ok.inj read)
          obtain rfl := s.graded e d f hold ht
          rw [Entry.address_link, Frame.containing_base]
          exact .inr ⟨rfl, rfl⟩
        · exact .inl (.link hold upper read present small)
      · rw [h.readEntry_of_ne s.sees hram (s.tables e f hold).1 hft] at read
        exact .inl (.link hold upper read present small)

/-- No link is lost. -/
theorem tableAt_link
    (hwasAbsent : ∀ e, s.machine.readEntry t i = .ok (some e) → e.isPresent = false)
    {e : ℕ} {f : Frame} (hf : s.machine.TableAt e f) : m'.TableAt e f := by
  apply hf.mono h.topTable_eq
  intro e f j entry hold _ _ hentry present _
  by_cases hft : f = t
  · subst hft
    rw [hread, if_neg, hentry]
    rintro rfl
    rw [hwasAbsent entry hentry] at present
    contradiction
  · rw [h.readEntry_of_ne s.sees (s.tables d t ht).1 (s.tables e f hold).1 hft, hentry]

end Link

end Holding

end KernelCore
