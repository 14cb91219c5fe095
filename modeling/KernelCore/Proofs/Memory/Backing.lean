import KernelCore.Proofs.Memory.Heap

/-!
# Backing the heap

After memory was set up, the heap is backed if and only if there are frames for its pages and for
the tables that they lack. Its pages then have frames of their own, which hold no tables, and no
address outside the heap is translated in another way than before. This takes tables that form a
tree apart from the bitmap: a table in the frame of the bitmap changes whenever a frame is handed
out, and with it the translations that go through it.
-/

namespace KernelCore

open FrameAllocator

namespace Kernel

variable {α β : Type} {m m' : Machine}

/-- An operation that leaves the pool as it is. -/
def KeepsRegion (k : Kernel α) : Prop :=
  ∀ m x m', k m = .ok x m' → m'.frames.map (·.region) = m.frames.map (·.region)

theorem keepsRegion_pure (x : α) : KeepsRegion (pure x) := by
  intro m y m' h
  obtain ⟨-, rfl⟩ := EStateM.Result.ok.inj h
  rfl

theorem KeepsRegion.bind {k : Kernel α} {f : α → Kernel β} (hk : KeepsRegion k)
    (hf : ∀ x, KeepsRegion (f x)) : KeepsRegion (k >>= f) := by
  intro m y m' h
  simp only [Bind.bind, EStateM.bind] at h
  split at h
  · rename_i x m₁ hx
    exact (hf x m₁ y m' h).trans (hk m x m₁ hx)
  · contradiction

theorem keepsRegion_onFrames (f : EStateM Panic FrameAllocator α) : KeepsRegion (onFrames f) := by
  intro m x m' h
  unfold onFrames at h
  split at h
  · obtain ⟨-, rfl⟩ := EStateM.Result.ok.inj h
    rfl
  · rename_i r hr
    split at h
    · obtain ⟨-, rfl⟩ := EStateM.Result.ok.inj h
      rw [hr]
      rfl
    · contradiction

theorem keepsRegion_serve (q : Request) : KeepsRegion (serve q) := by
  have hpure : ∀ granted : List ℕ, KeepsRegion (pure granted) := keepsRegion_pure
  cases q with
  | frame =>
    refine KeepsRegion.bind ?_ fun _ => hpure _
    refine (keepsRegion_onFrames _).bind fun f => ?_
    cases f <;> exact keepsRegion_pure _
  | run size =>
    refine KeepsRegion.bind ?_ fun p => ?_
    · refine (keepsRegion_onFrames _).bind fun p => ?_
      cases p <;> exact keepsRegion_pure _
    · cases p <;> exact hpure _
  | free p =>
    exact ((keepsRegion_onFrames _).bind fun _ => keepsRegion_pure _).bind fun _ => hpure _
  | release f =>
    exact ((keepsRegion_onFrames _).bind fun _ => keepsRegion_pure _).bind fun _ => hpure _

end Kernel

namespace Machine

/-- Memory was set up, and since then nothing but the allocator has written to its bitmap. -/
inductive Managed : Machine → Prop
  | setUp {entries : List MapEntry} {offset : UInt64} {totals : MemoryTotals} {m m' : Machine}
      (done : Kernel.setUpMemory entries offset m = .ok (.ok totals) m') : Managed m'
  | request {m m' : Machine} {q : Request} {granted : List ℕ} (managed : Managed m)
      (served : Kernel.serve q m = .ok granted m') : Managed m'
  /-- Anything else, such as mapping a page in tables that are apart from the bitmap. -/
  | other {m m' : Machine} (managed : Managed m) (frames : m'.frames = m.frames)
      (mapper : m'.mapper = m.mapper)
      (bitmap : ∀ r c, m.frames = some r → r.storage.val ≤ c → c < r.storage.val + r.size →
        m'.memory.byte c = m.memory.byte c) : Managed m'

/-- The allocator keeps its books where the direct map leads to its bitmap, apart from the pool. -/
structure KeepsBooks (m : Machine) (map : DirectMap) (r : ResidentAllocator) : Prop where
  mapper : m.mapper = some map
  lends : m.Lends r (r.load m.memory)
  storage : map.toVirt r.bitmapRegion.base = .ok r.storage
  size : r.bitmapRegion.length.toNat = r.size
  apart : ∀ i < r.region.frameCount,
    r.region.base.val + i * 4096 + 4096 ≤ r.bitmapRegion.base.val ∨
      r.bitmapRegion.base.val + r.bitmapRegion.length.toNat ≤ r.region.base.val + i * 4096

variable {m m' : Machine} {map : DirectMap} {r : ResidentAllocator} {ram : Set ℕ}

theorem keepsBooks_of_setUp {entries : List MapEntry} {offset : UInt64} {totals : MemoryTotals}
    (hdone : Kernel.setUpMemory entries offset m = .ok (.ok totals) m')
    (hframes : m'.frames = some r)
    (hend : r.region.base.val + r.region.length.toNat ≤ 0x10000000000000) :
    ∃ map, KeepsBooks m' map r := by
  have hcases := Kernel.setUpMemory_cases entries offset m
  rw [hdone] at hcases
  cases hcases with
  | @done _ _ pool map r' chosen directMap mapper placed frames ramSame processor =>
    obtain rfl := Option.some.inj (frames.symm.trans hframes)
    obtain ⟨hstorage, hregion, -, -, buffer, hnew⟩ := ResidentAllocator.placed_eq_ok placed
    obtain ⟨hflaw, -, hpart, -⟩ := ofBuffer_eq_ok hnew
    rw [hregion] at hend
    obtain ⟨hlends, -⟩ := Kernel.lends_of_placed hend placed frames
    have hbitmap : r'.bitmapRegion = bitmapPart pool.frames pool.bitmap := hpart
    refine ⟨map, mapper, hlends, ?_, ?_, fun i hi => ?_⟩
    · rw [hbitmap]
      exact hstorage
    · rw [hbitmap, ResidentAllocator.size, hregion]
      exact length_bitmapPart hflaw
    · exact startOf_disjoint_bitmap hnew hend hi

theorem KeepsBooks.served {q : Request} {granted : List ℕ} {r' : ResidentAllocator}
    (h : KeepsBooks m map r) (hserved : Kernel.serve q m = .ok granted m')
    (hframes : m'.frames = some r') : KeepsBooks m' map r' := by
  obtain ⟨granted', b, hserve, hlends, -⟩ := Kernel.serve_eq_ok h.lends q
  obtain ⟨-, rfl⟩ := EStateM.Result.ok.inj (hserve.symm.trans hserved)
  obtain rfl := Option.some.inj (hlends.frames.symm.trans hframes)
  refine ⟨h.mapper, ?_, h.storage, h.size, h.apart⟩
  rw [hlends.load]
  exact hlends

theorem Managed.keepsBooks (h : Managed m) (hframes : m.frames = some r)
    (hend : r.region.base.val + r.region.length.toNat ≤ 0x10000000000000) :
    ∃ map, KeepsBooks m map r := by
  induction h generalizing r with
  | setUp done => exact keepsBooks_of_setUp done hframes hend
  | @request m m' q granted _ served ih =>
    have hregion := Kernel.keepsRegion_serve q m granted m' served
    rw [hframes, Option.map_some, eq_comm, Option.map_eq_some_iff] at hregion
    obtain ⟨r₀, hr₀, hsame⟩ := hregion
    obtain ⟨map, hmap⟩ := ih hr₀ (hsame ▸ hend)
    exact ⟨map, hmap.served served hframes⟩
  | @other m m' _ frames mapper bitmap ih =>
    rw [frames] at hframes
    obtain ⟨map, hmap⟩ := ih hframes hend
    have hload : r.load m'.memory = r.load m.memory :=
      ResidentAllocator.load_congr fun c h₁ h₂ => bitmap r c hframes h₁ h₂
    refine ⟨map, mapper.trans hmap.mapper, ⟨frames.trans hframes, rfl, ?_⟩, hmap.storage,
      hmap.size, hmap.apart⟩
    rw [hload]
    exact hmap.lends.sound

theorem bytes_subset_of_isFree {memory : Memory} {f : Frame} (hf : (r.load memory).isFree f) :
    f.bytes ⊆ r.region.bytes := by
  obtain ⟨i, hi, hbase⟩ := hf
  rw [Frame.bytes, hbase]
  exact r.region.frame_subset_bytes (mem_vacancies.mp hi).1

/-- The loaded tables form a tree in RAM, of frames that the allocator does not hand out. -/
structure HasTree (m : Machine) (ram : Set ℕ) (r : ResidentAllocator) : Prop where
  inRam : ∀ way f, way.length ≤ 3 → m.tableAt? way = some f → f.bytes ⊆ ram
  taken : ∀ way f, way.length ≤ 3 → m.tableAt? way = some f → ¬ (r.load m.memory).isFree f
  unique : ∀ way way' f, way.length ≤ 3 → way'.length ≤ 3 → m.tableAt? way = some f →
    m.tableAt? way' = some f → way = way'

/-- No loaded table has a byte of `s`. -/
def TablesApart (m : Machine) (s : Set ℕ) : Prop :=
  ∀ way f, way.length ≤ 3 → m.tableAt? way = some f → Disjoint f.bytes s

/-- The pool and the bitmap are in RAM that the direct map reaches, none of it at virtual address
zero, which no table can have. -/
structure Housed (m : Machine) (map : DirectMap) (ram : Set ℕ) (r : ResidentAllocator) : Prop where
  mapper : m.mapper = some map
  reaches : map.Reaches m.ram ram
  nonzero : ∀ x ∈ ram, map.place x ≠ 0
  pool : r.region.bytes ⊆ ram
  bitmap : r.bitmapRegion.bytes ⊆ ram

/-- Such a machine shows an arena with the same allocator. -/
theorem exists_shows (hbooks : KeepsBooks m map r) (hhoused : m.Housed map ram r)
    (htree : HasTree m ram r) (hapart : m.TablesApart r.bitmapRegion.bytes) :
    ∃ within a, Shows within map ram m a ∧ a.frames = r.load m.memory := by
  classical
  let within : Frame → Bool := fun f =>
    decide (f.bytes ⊆ ram ∧ Disjoint f.bytes r.bitmapRegion.bytes)
  have hin : ∀ f, within f = true → f.bytes ⊆ ram ∧ Disjoint f.bytes r.bitmapRegion.bytes :=
    fun f hf => of_decide_eq_true hf
  have hsees : m.Sees map ram := ⟨hbooks.mapper, hhoused.reaches⟩
  have hbacked : Backed within map ram m r := by
    refine ⟨hsees, hbooks.lends.frames, fun f hf => (hin f hf).1,
      fun f hf => hhoused.nonzero _ ((hin f hf).1 f.base_mem_bytes), fun f hf x hx => ?_⟩
    have hout := hhoused.reaches.place_outside hhoused.bitmap ((hin f hf).1 hx)
      (Set.disjoint_left.mp (hin f hf).2 hx)
    rwa [DirectMap.place_eq hbooks.storage, hbooks.size] at hout
  obtain ⟨n, hn⟩ : ∃ n, ∀ f : Frame, f.number < n := ⟨_, fun f => f.lt⟩
  have hmirrors : Mirrors within m (m.mirror n (r.load m.memory)) :=
    hsees.mirrors hbooks.lends.frames hbacked.inRam hbacked.nonzero fun f _ => hn f
  generalize m.mirror n (r.load m.memory) = a at hmirrors
  have hframes : a.frames = r.load m.memory := (hmirrors.load_eq hbacked).symm
  have htables : ∀ {way f}, way.length ≤ 3 → m.tableAt? way = some f → within f = true :=
    fun hway hf => decide_eq_true ⟨htree.inRam _ _ hway hf, hapart _ _ hway hf⟩
  have hsame : ∀ {way}, way.length ≤ 3 → m.tableAt? way = a.tableAt? way := fun hway =>
    hmirrors.tableAt?_eq (fun _ _ hlt hf _ => htables hlt.le hf) hway
  refine ⟨within, a, ⟨⟨r, hbacked⟩, hmirrors, ⟨⟨⟨_, hmirrors.root⟩, ?_, ?_, ?_⟩, ?_, ?_, ?_, ?_⟩⟩,
    hframes⟩
  · exact fun hway hf => hmirrors.reached _ (htables hway ((hsame hway).trans hf))
  · intro way way' f hway hway' hf hf'
    exact htree.unique way way' f hway hway' ((hsame hway).trans hf) ((hsame hway').trans hf')
  · intro way f hway hf
    rw [hframes]
    exact htree.taken way f hway ((hsame hway).trans hf)
  · rw [hframes]
    exact hbooks.lends.sound
  · exact fun hf => hmirrors.reached _ hf
  · exact fun hway hf => htables hway ((hsame hway).trans hf)
  · intro f hf
    rw [hframes] at hf
    refine decide_eq_true ⟨(bytes_subset_of_isFree hf).trans hhoused.pool, ?_⟩
    obtain ⟨i, hi, hbase⟩ := hf
    have hbounds := hbooks.apart i (mem_vacancies.mp hi).1
    rw [Frame.bytes, hbase, Extent.bytes, Set.Ico_disjoint_Ico]
    simp only [startOf, ResidentAllocator.load]
    omega

end Machine

namespace Heap

open Arena Machine Paging

variable {m m' : Machine} {map : DirectMap} {r : ResidentAllocator} {ram : Set ℕ} {a b : Arena}
  {within : Frame → Bool} {v : VirtAddr}

/-- No entry on the way to the heap stands for a large page, and no page of the heap is there. -/
structure IsVacant (m : Machine) : Prop where
  passable : ∀ i w f e, (i :: w) <:+ (page 0).way → m.tableAt? w = some f →
    m.readEntry f i = .ok (some e) → e.isPresent = true → e.isHuge = false
  vacant : ∀ v, Covers v → presentLeaf? m v = none

/-- Nothing but frames is missing for the heap: the loaded tables form a tree, there is nothing in the
heap yet, and no frame of the pool is at address zero or past 2^48. -/
structure Ready (m : Machine) (ram : Set ℕ) (r : ResidentAllocator) : Prop where
  frames : m.frames = some r
  tree : HasTree m ram r
  vacant : IsVacant m
  base_pos : 0 < r.region.base.val
  end_le : r.region.base.val + r.region.length.toNat ≤ 0x1000000000000

/-- Addresses outside the heap are translated as before. -/
def SameOutside (m m' : Machine) : Prop :=
  ∀ v, ¬ Covers v → ∃ p, Kernel.translate v m = .ok p m ∧ Kernel.translate v m' = .ok p m'

theorem sameOutside_of_progress (h : Shows within map ram m a) (h' : Shows within map ram m' b)
    (hprogress : Progress (pagesFrom 0 256) a b) : SameOutside m m' := by
  intro v hv
  refine ⟨_, h.translate_eq v, ?_⟩
  rw [h'.translate_eq v, hprogress.leaves v fun hmem => hv (covers_iff.mpr hmem)]

theorem awaits_of_isVacant (h : Shows within map ram m a) (hvacant : IsVacant m)
    (hnonzero : ∀ f, a.frames.isFree f → f.base.val ≠ 0) : Awaits a 0 256 where
  passable := by
    intro i w t hsuffix ht hpresent
    have hlength := hsuffix.length_le
    rw [List.length_cons, VirtAddr.length_way] at hlength
    have hread := h.mirrors.cells t (h.enclosed.table (by omega) ht) i
    rw [read?_eq_some (reaches_of_isPresent hpresent)] at hread
    exact hvacant.passable i w t _ hsuffix ((h.tableAt?_eq (by omega)).trans ht) hread hpresent
  vacant k _ hk := by
    rw [← h.presentLeaf?_eq]
    refine hvacant.vacant (page k) (covers_iff.mpr ?_)
    rw [number_page (by omega), pagesFrom, Set.mem_Ico]
    omega
  nonzero := hnonzero

theorem uses_iff (h : Shows within map ram m a) (f : Frame) :
    m.Uses f ↔ a.frames.isUsed f = true := by
  obtain ⟨r, hr, hload⟩ := h.frames
  rw [← hload]
  constructor
  · rintro ⟨r', hr', hused⟩
    obtain rfl := Option.some.inj (hr.symm.trans hr')
    exact hused
  · exact fun hused => ⟨r, hr, hused⟩

/-- As many frames as are free no more are in use. -/
theorem ncard_uses {n : ℕ} (h : Shows within map ram m a) (h' : Shows within map ram m' b)
    (hregion : b.frames.region = a.frames.region) (hcount : b.frames.free + n = a.frames.free) :
    {f | m'.Uses f}.ncard = {f | m.Uses f}.ncard + n := by
  have hused : {f | m.Uses f} = {f | a.frames.isUsed f = true} := Set.ext (uses_iff h)
  have hused' : {f | m'.Uses f} = {f | b.frames.isUsed f = true} := Set.ext (uses_iff h')
  have htotal : b.frames.total = a.frames.total := by rw [total, total, hregion]
  have hle := h.enclosed.sound.free_add_lent
  rw [hused, hused', ← h.enclosed.sound.used_eq, ← h'.enclosed.sound.used_eq, used, used, htotal]
  omega

/-- An address of a page that was backed. -/
theorem translate_of_backs {fs : List Frame} (h : Shows within map ram m b)
    (hbacks : Backs a b 0 fs) (hlength : fs.length = 256)
    (hsmall : ∀ f ∈ fs, f.base.val < 0x1000000000000) (hv : Covers v) :
    ∃ f p, fs[(v.val - start) / 4096]? = some f ∧ Kernel.translate v m = .ok (some p) m ∧
      p.val = f.base.val + v.pageOffset ∧ leafFlags m v = .ok (some 0x8000000000000003) := by
  obtain ⟨hlow, hhigh⟩ := hv
  generalize hk : (v.val - start) / 4096 = k
  have hlt : k < 256 := by
    rw [size] at hhigh
    omega
  have hpage : v.page = (page k).page := by
    rw [number_page hlt, VirtAddr.page, start]
    rw [start] at hlow hk
    omega
  have hf : fs[k]? = some fs[k] := List.getElem?_eq_getElem (by omega)
  have hleaf := hbacks.leaf k _ hf
  rw [Nat.zero_add, ← presentLeaf?_congr hpage] at hleaf
  refine ⟨fs[k], physicalAddress (.leaf fs[k].base attributes) v, hf, ?_, ?_, ?_⟩
  · rw [h.translate_eq v, hleaf, Option.map_some]
  · have hbase := hsmall fs[k] (List.getElem_mem _)
    have haddress := Entry.address_leaf fs[k].base attributes
    simp only [Frame.base] at hbase haddress
    simp only [physicalAddress, Frame.base]
    omega
  · rw [leafFlags_of_presentLeaf? (h.presentLeaf?_eq v ▸ hleaf), Entry.flags_leaf]
    rfl

theorem backHeap_eq_ok (h : mapPages 256 0 m = .ok (.ok ()) m') :
    ∃ console, Kernel.backHeap m = .ok (.ok ()) { m' with console } :=
  ⟨_, bind_ok (x := mapPages (size / 4096) 0) h⟩

theorem backHeap_eq_error {e : MemoryError} (h : mapPages 256 0 m = .ok (.error e) m') :
    Kernel.backHeap m = .ok (.error e) m' :=
  bind_error (x := mapPages (size / 4096) 0) h

/-- The heap is backed completely, with frames of its own, and at an exact price. Let memory be set
up, and let the tables that are loaded since then form a tree apart from the free frames, with
nothing mapped in the heap, and with a pool that does not start at address 0 and does not reach past
2^48. If there are 256 free frames and one more for each table that the heap lacks, then the heap is
backed with 256 of them: they are different, none of them is a table, each address of the heap leads
to the frame of its page, and the pages are present, writable and not executable. If there are
fewer, then frames run out. In both cases all other addresses are translated as before.

The memory of the bitmap has to be the allocator's alone: nothing else has written to it, and no
table is there. And pool, bitmap and tables have to be RAM, at addresses of their own in the direct
map. -/
theorem heap_is_backed (hmanaged : m.Managed) (hapart : m.TablesApart r.bitmapRegion.bytes)
    (hhoused : m.Housed map ram r) (hready : Ready m ram r) :
    (256 + m.missing (page 0).way ≤ r.free →
      ∃ (m' : Machine) (r' : ResidentAllocator) (fs : List Frame),
        Kernel.backHeap m = .ok (.ok ()) m' ∧ m'.frames = some r' ∧ fs.length = 256 ∧ fs.Nodup ∧
        (∀ f ∈ fs, (r.load m.memory).isFree f ∧
          ∀ way, way.length ≤ 3 → m'.tableAt? way ≠ some f) ∧
        (∀ v, Covers v → ∃ f p, fs[(v.val - start) / 4096]? = some f ∧
          Kernel.translate v m' = .ok (some p) m' ∧ p.val = f.base.val + v.pageOffset ∧
          leafFlags m' v = .ok (some 0x8000000000000003)) ∧
        r'.free + (256 + m.missing (page 0).way) = r.free ∧
        {f | m'.Uses f}.ncard = {f | m.Uses f}.ncard + (256 + m.missing (page 0).way) ∧
        SameOutside m m') ∧
      (r.free < 256 + m.missing (page 0).way →
        ∃ (e : MemoryError) (m' : Machine),
          Kernel.backHeap m = .ok (.error e) m' ∧ Exhausts e ∧ SameOutside m m') := by
  obtain ⟨hframes, htree, hvacant, hstart, hend⟩ := hready
  obtain ⟨map', hbooks⟩ := hmanaged.keepsBooks hframes (by omega)
  obtain rfl := Option.some.inj (hbooks.mapper.symm.trans hhoused.mapper)
  obtain ⟨within, a, hshows, hload⟩ := exists_shows hbooks hhoused htree hapart
  have hbounds : ∀ f, a.frames.isFree f →
      r.region.base.val ≤ f.base.val ∧ f.base.val < 0x1000000000000 := by
    intro f hf
    rw [hload] at hf
    obtain ⟨hlow, hhigh⟩ := bytes_subset_of_isFree hf f.base_mem_bytes
    exact ⟨hlow, hhigh.trans_le hend⟩
  have hawaits := awaits_of_isVacant hshows hvacant fun f hf => by
    have hlow := (hbounds f hf).1
    omega
  have hdemand : demand a 256 = 256 + m.missing (page 0).way := by
    rw [demand, if_neg (by decide), missing_eq (fun _ => hshows.tableAt?_eq) (page 0).length_way.le]
  have hfree : a.frames.free = r.free := by
    rw [hload]
    rfl
  have hcases := mapPages_cases hshows (by decide) hawaits
  rw [hdemand, hfree] at hcases
  constructor
  · intro henough
    rcases hcases with ⟨-, fs, m₁, b, hrun, hm₁, hlength, hbacks, hcount⟩ | ⟨hfew, -⟩
    · obtain ⟨console, hback⟩ := backHeap_eq_ok hrun
      have hm' := hm₁.logged console
      obtain ⟨r', hr', hload'⟩ := hm'.frames
      have hfree' : b.frames.free = r'.free := by
        rw [← hload']
        rfl
      have hprogress := hbacks.progress
      rw [hlength] at hprogress
      refine ⟨_, r', fs, hback, hr', hlength, hbacks.nodup, fun f hf => ⟨?_, fun way hway => ?_⟩,
        fun v hv => ?_, by omega, ?_, sameOutside_of_progress hshows hm' hprogress⟩
      · rw [← hload]
        exact hbacks.wasFree f hf
      · rw [hm'.tableAt?_eq hway]
        exact (hbacks.data f hf).2 way hway
      · exact translate_of_backs hm' hbacks hlength
          (fun f hf => (hbounds f (hbacks.wasFree f hf)).2) hv
      · exact ncard_uses hshows hm' hprogress.region (hcount.trans hfree.symm)
    · omega
  · intro hfew
    rcases hcases with ⟨henough, -⟩ | ⟨-, e, m', b, herror, hm', hprogress, he⟩
    · omega
    · exact ⟨e, m', backHeap_eq_error herror, he, sameOutside_of_progress hshows hm' hprogress⟩

/-! ## Small machines -/

variable {chain : List Frame} {way : List TableIndex} {f : Frame}

/-- A machine with the frames of `chain` as its tables. Each is linked from the one before it, by
the entry at index 1. -/
structure HasChain (m : Machine) (chain : List Frame) : Prop where
  top : chain[0]? = some m.topTable
  link : ∀ k f i e, chain[k]? = some f → m.readEntry f i = .ok (some e) → e.isPresent = true →
    i = 1 ∧ chain[k + 1]? = some (.containing e.address)

theorem HasChain.of_tableAt? (h : HasChain m chain) (hf : m.tableAt? way = some f) :
    way = List.replicate way.length 1 ∧ chain[way.length]? = some f := by
  induction way generalizing f with
  | nil => exact ⟨rfl, h.top.trans hf⟩
  | cons i way ih =>
    obtain ⟨g, hg, hnext⟩ := Option.bind_eq_some_iff.mp hf
    obtain ⟨hway, hchain⟩ := ih hg
    split at hnext
    · rename_i e hread
      rw [target] at hnext
      split at hnext
      · rename_i hlink
        obtain ⟨rfl, hlast⟩ := h.link _ g i e hchain hread (Bool.and_eq_true_iff.mp hlink).1
        obtain rfl := Option.some.inj hnext
        rw [List.length_cons, List.replicate_succ, ← hway]
        exact ⟨rfl, hlast⟩
      · contradiction
    · contradiction

theorem HasChain.hasTree (h : HasChain m chain) (hnodup : chain.Nodup)
    (hram : ∀ f ∈ chain, f.bytes ⊆ ram) (houtside : ∀ f ∈ chain, f.base.val ∉ r.region.bytes) :
    HasTree m ram r where
  inRam way f _ hf := hram f (List.mem_of_getElem? (h.of_tableAt? hf).2)
  taken way f _ hf hfree := houtside f (List.mem_of_getElem? (h.of_tableAt? hf).2)
    (bytes_subset_of_isFree hfree f.base_mem_bytes)
  unique way way' f _ _ hf hf' := by
    obtain ⟨hway, hchain⟩ := h.of_tableAt? hf
    obtain ⟨hway', hchain'⟩ := h.of_tableAt? hf'
    have hlength : way.length = way'.length :=
      (List.getElem?_inj (List.getElem?_eq_some_iff.mp hchain).1 hnodup).mp
        (hchain.trans hchain'.symm)
    rw [hway, hway', hlength]

theorem way_page_zero : (page 0).way = [0, 508, 511] := by decide

/-- The heap takes the last entry of the top table. -/
theorem pml4_index (hv : Covers v) : LinkLevel.pml4.index v = 511 := by
  obtain ⟨hlow, hhigh⟩ := hv
  rw [start] at hlow hhigh
  rw [size] at hhigh
  ext
  simp only [LinkLevel.index, VirtAddr.index, LinkLevel.span]
  omega

/-- Without the last entry of the top table nothing is mapped in the heap, and it lacks all of its
tables. -/
theorem isVacant_of_absent {e : Entry} (hroot : rootTable m = .ok (.ok m.topTable))
    (hread : m.readEntry m.topTable 511 = .ok (some e)) (habsent : e.isPresent = false) :
    IsVacant m ∧ m.missing (page 0).way = 3 := by
  have hnone : m.tableAt? [511] = none := by
    simp only [Machine.tableAt?, Option.bind_some, hread, target, habsent]
    rfl
  have hnone' : m.tableAt? [508, 511] = none := by
    rw [Machine.tableAt?, hnone]
    rfl
  have hnone'' : m.tableAt? [0, 508, 511] = none := by
    rw [Machine.tableAt?, hnone']
    rfl
  refine ⟨⟨?_, ?_⟩, ?_⟩
  · rintro i w f e' hsuffix hf hread' hpresent
    rw [way_page_zero] at hsuffix
    simp only [List.suffix_cons_iff, List.cons.injEq, List.suffix_nil, reduceCtorEq,
      or_false] at hsuffix
    rcases hsuffix with ⟨-, rfl⟩ | ⟨-, rfl⟩ | ⟨rfl, rfl⟩
    · rw [hnone'] at hf
      contradiction
    · rw [hnone] at hf
      contradiction
    · obtain rfl := Option.some.inj hf
      obtain rfl := Option.some.inj (Except.ok.inj (hread.symm.trans hread'))
      rw [habsent] at hpresent
      contradiction
  · intro v hv
    refine presentLeaf?_of_absent hroot ?_ habsent
    rw [pml4_index hv]
    exact hread
  · simp [way_page_zero, Machine.missing, hnone, hnone', hnone'']

theorem housed_lowerHalf {n : ℕ} (hmapper : m.mapper = some ⟨0x200000000000⟩)
    (hram : m.ram = ⟨0x200000000000, n⟩) (hhigh : n ≤ 0x200000000000)
    (hpool : r.region.base.val + r.region.length.toNat ≤ n)
    (hbitmap : r.bitmapRegion.base.val + r.bitmapRegion.length.toNat ≤ n) :
    m.Housed ⟨0x200000000000⟩ (Set.Ico 0 n) r where
  mapper := hmapper
  reaches := DirectMap.reaches_lowerHalf hram hhigh
  nonzero _ hx := DirectMap.place_lowerHalf_ne_zero (hx.2.trans_le hhigh)
  pool := Set.Ico_subset_Ico (Nat.zero_le _) hpool
  bitmap := Set.Ico_subset_Ico (Nat.zero_le _) hbitmap

/-- With a blank top table in frame 1 everything is there but the frames, whatever other memory
holds. -/
theorem ready_of_blank_table {n : ℕ} (hmapper : m.mapper = some ⟨0x200000000000⟩)
    (hram : m.ram = ⟨0x200000000000, n⟩) (hlow : 0x2000 ≤ n) (hhigh : n ≤ 0x200000000000)
    (htop : m.topTable = ⟨1, by decide⟩)
    (hroot : rootTable m = .ok (.ok ⟨1, by decide⟩))
    (hblank : ∀ c, 0x200000001000 ≤ c → c < 0x200000002000 → m.memory.byte c = 0)
    (hframes : m.frames = some r) (hpool : 0x2000 ≤ r.region.base.val)
    (hend : r.region.base.val + r.region.length.toNat ≤ 0x1000000000000)
    (hbitmap : 0x2000 ≤ r.bitmapRegion.base.val) :
    m.TablesApart r.bitmapRegion.bytes ∧ Ready m (Set.Ico 0 n) r ∧
      m.missing (page 0).way = 3 := by
  have hframe : Frame.bytes ⟨1, by decide⟩ ⊆ Set.Ico 0 n :=
    Set.Ico_subset_Ico (Nat.zero_le _) hlow
  have hread : ∀ i, m.readEntry ⟨1, by decide⟩ i = .ok (some ⟨0⟩) := by
    intro i
    rw [Sees.readEntry_lowerHalf ⟨hmapper, DirectMap.reaches_lowerHalf hram hhigh⟩ hhigh hframe,
      Memory.word_eq_zero]
    intro c h₁ h₂
    have hi := i.isLt
    simp only [Frame.base] at h₁ h₂
    exact hblank c (by omega) (by omega)
  have hchain : HasChain m [⟨1, by decide⟩] := by
    refine ⟨congrArg some htop.symm, fun k f i e hk he hpresent => ?_⟩
    obtain rfl := List.mem_singleton.mp (List.mem_of_getElem? hk)
    obtain rfl := Option.some.inj (Except.ok.inj ((hread i).symm.trans he))
    contradiction
  obtain ⟨hvacant, hmissing⟩ := isVacant_of_absent (e := ⟨0⟩) (htop ▸ hroot) (htop ▸ hread 511) rfl
  refine ⟨fun way f _ hf => ?_, ⟨hframes, ?_, hvacant, by omega, hend⟩, hmissing⟩
  · obtain rfl := List.mem_singleton.mp (List.mem_of_getElem? (hchain.of_tableAt? hf).2)
    rw [Frame.bytes, Extent.bytes, Set.Ico_disjoint_Ico]
    simp only [Frame.base]
    omega
  · refine hchain.hasTree (List.nodup_singleton _) (fun f hf => ?_) (fun f hf => ?_)
    · obtain rfl := List.mem_singleton.mp hf
      exact hframe
    · obtain rfl := List.mem_singleton.mp hf
      rw [Extent.bytes, Set.mem_Ico]
      simp only [Frame.base]
      omega

/-- A usable entry of 272 frames, and another one for its bitmap. -/
def roomyMap : List MapEntry :=
  [⟨0, 0x4000, .reserved⟩, ⟨0x4000, 0x110000, .usable⟩, ⟨0x1f0000, 0x1000, .usable⟩]

/-- The allocator that is set up with the roomy map. -/
def roomyAllocator : ResidentAllocator :=
  ⟨⟨⟨0x4000, by decide⟩, 0x110000⟩, ⟨⟨0x1f0000, by decide⟩, 34⟩, ⟨0x2000001f0000, by decide⟩, 272⟩

set_option maxRecDepth 4000 in
theorem setUpMemory_roomy : ∃ (totals : MemoryTotals) (m : Machine),
    Kernel.setUpMemory roomyMap 0x200000000000 (smallMachine .zeroed) = .ok (.ok totals) m ∧
      m.mapper = some ⟨0x200000000000⟩ ∧ m.ram = ⟨0x200000000000, 0x400000⟩ ∧
      m.memory = .zeroed ∧ m.topTable = ⟨1, by decide⟩ ∧
      rootTable m = .ok (.ok ⟨1, by decide⟩) ∧ m.frames = some roomyAllocator :=
  ⟨_, _, rfl, rfl, rfl, rfl, rfl, rfl, rfl⟩

/-- That machine is ready for its heap, whatever its memory holds apart from the top table. -/
theorem ready_roomy (hmapper : m.mapper = some ⟨0x200000000000⟩)
    (hram : m.ram = ⟨0x200000000000, 0x400000⟩) (htop : m.topTable = ⟨1, by decide⟩)
    (hroot : rootTable m = .ok (.ok ⟨1, by decide⟩))
    (hblank : ∀ c, 0x200000001000 ≤ c → c < 0x200000002000 → m.memory.byte c = 0)
    (hframes : m.frames = some roomyAllocator) :
    m.TablesApart roomyAllocator.bitmapRegion.bytes ∧
      m.Housed ⟨0x200000000000⟩ (Set.Ico 0 0x400000) roomyAllocator ∧
      Ready m (Set.Ico 0 0x400000) roomyAllocator ∧ m.missing (page 0).way = 3 := by
  obtain ⟨hapart, hready, hmissing⟩ := ready_of_blank_table hmapper hram (by decide) (by decide)
    htop hroot hblank hframes (by decide) (by decide) (by decide)
  exact ⟨hapart, housed_lowerHalf hmapper hram (by decide) (by decide) (by decide), hready,
    hmissing⟩

/-- Below a blank top table the heap takes 256 frames for its pages and 3 for its tables. -/
theorem heap_is_backed_below_blank_table :
    ∃ (totals : MemoryTotals) (m m' : Machine) (r r' : ResidentAllocator),
      Kernel.setUpMemory roomyMap 0x200000000000 (smallMachine .zeroed) = .ok (.ok totals) m ∧
      m.frames = some r ∧ r.free = 272 ∧ IsVacant m ∧
      Kernel.backHeap m = .ok (.ok ()) m' ∧ m'.frames = some r' ∧ r'.free = 13 ∧
      SameOutside m m' := by
  obtain ⟨totals, m, hinit, hmapper, hram, hmemory, htop, hroot, hframes⟩ := setUpMemory_roomy
  have hfree : roomyAllocator.free = 272 := rfl
  obtain ⟨hapart, hhoused, hready, hmissing⟩ := ready_roomy hmapper hram htop hroot
    (fun c _ _ => by rw [hmemory, Memory.zeroed, Memory.byte_filled]) hframes
  have hbacked := heap_is_backed (.setUp hinit) hapart hhoused hready
  obtain ⟨m', r', fs, hback, hframes', -, -, -, -, hcount, -, hsame⟩ := hbacked.1 (by omega)
  exact ⟨totals, m, m', _, r', hinit, hframes, hfree, hready.vacant, hback, hframes', by omega,
    hsame⟩

/-- Memory in which all bits of the roomy map's bitmap are set. -/
def overwritten : Memory :=
  .filled fun a => if 0x2000001f0000 ≤ a ∧ a < 0x2000001f0022 then 0xff else 0

theorem byte_overwritten {c : ℕ} (hc : c ∉ Set.Ico 0x2000001f0000 0x2000001f0022) :
    overwritten.byte c = 0 := by
  rw [Set.mem_Ico] at hc
  rw [overwritten, Memory.byte_filled, if_neg hc]

/-- The bitmap must have been written by the allocator alone. If something else sets its bits, the
allocator finds none of the 272 frames that it counts as free. -/
theorem unwritten_bitmap_needed :
    ∃ (totals : MemoryTotals) (m k m' : Machine) (r : ResidentAllocator),
      Kernel.setUpMemory roomyMap 0x200000000000 (smallMachine .zeroed) = .ok (.ok totals) m ∧
      k = { m with memory := overwritten } ∧
      (∀ c, c ∉ Set.Ico 0x2000001f0000 0x2000001f0022 → k.memory.byte c = m.memory.byte c) ∧
      k.TablesApart r.bitmapRegion.bytes ∧ k.Housed ⟨0x200000000000⟩ (Set.Ico 0 0x400000) r ∧
      Ready k (Set.Ico 0 0x400000) r ∧ 256 + k.missing (page 0).way ≤ r.free ∧
      Kernel.backHeap k = .ok (.error .outOfFrames) m' := by
  obtain ⟨totals, m, hinit, hmapper, hram, hmemory, htop, hroot, hframes⟩ := setUpMemory_roomy
  obtain ⟨hapart, hhoused, hready, hmissing⟩ :=
    ready_roomy (m := { m with memory := overwritten }) hmapper hram htop hroot
      (fun c _ hc => byte_overwritten fun hin => by
        have hlow := hin.1
        omega)
      hframes
  have hfree : roomyAllocator.free = 272 := rfl
  have hnone : (roomyAllocator.load overwritten).reserveFrame = none := by decide +kernel
  obtain ⟨m', hallocate⟩ : ∃ m',
      Kernel.allocateFrame { m with memory := overwritten } = .ok none m' := by
    simp only [Kernel.allocateFrame, bind, EStateM.bind, Kernel.onFrames, hframes,
      FrameAllocator.allocateFrame, hnone]
    exact ⟨_, rfl⟩
  refine ⟨totals, m, _, m', _, hinit, rfl, fun c hc => ?_, hapart, hhoused, hready, by omega,
    backHeap_eq_error (mapPages_of_none hallocate)⟩
  rw [byte_overwritten hc, hmemory, Memory.zeroed, Memory.byte_filled]

/-- A usable entry of 272 frames past the memory of the small machine, and one for its bitmap. -/
def distantMap : List MapEntry :=
  [⟨0, 0x4000, .reserved⟩, ⟨0x400000, 0x110000, .usable⟩, ⟨0xe000, 0x1000, .usable⟩]

set_option maxRecDepth 4000 in
/-- The pool must be in RAM that the direct map reaches. If it is not, there is no result at all: the
first frame that becomes a table is cleared where there is no memory. -/
theorem reachable_pool_needed :
    ∃ (totals : MemoryTotals) (m m' : Machine) (r : ResidentAllocator),
      Kernel.setUpMemory distantMap 0x200000000000 (smallMachine .zeroed) = .ok (.ok totals) m ∧
      m.TablesApart r.bitmapRegion.bytes ∧ m.mapper = some ⟨0x200000000000⟩ ∧
      DirectMap.Reaches ⟨0x200000000000⟩ m.ram (Set.Ico 0 0x400000) ∧
      r.bitmapRegion.bytes ⊆ Set.Ico 0 0x400000 ∧ Ready m (Set.Ico 0 0x400000) r ∧
      256 + m.missing (page 0).way ≤ r.free ∧ Kernel.backHeap m = .error .fault m' := by
  obtain ⟨totals, m, r, m', hinit, hmapper, hram, hmemory, htop, hroot, hframes, hregion, hbitmap,
    hfree, hback⟩ :
      ∃ totals m r m',
        Kernel.setUpMemory distantMap 0x200000000000 (smallMachine .zeroed) = .ok (.ok totals) m ∧
        m.mapper = some ⟨0x200000000000⟩ ∧ m.ram = ⟨0x200000000000, 0x400000⟩ ∧
        m.memory = .zeroed ∧ m.topTable = ⟨1, by decide⟩ ∧
        rootTable m = .ok (.ok ⟨1, by decide⟩) ∧ m.frames = some r ∧
        r.region = ⟨⟨0x400000, by decide⟩, 0x110000⟩ ∧
        r.bitmapRegion = ⟨⟨0xe000, by decide⟩, 34⟩ ∧ r.free = 272 ∧
        Kernel.backHeap m = .error .fault m' :=
    ⟨_, _, _, _, rfl, rfl, rfl, rfl, rfl, rfl, rfl, rfl, rfl, rfl, rfl⟩
  obtain ⟨hapart, hready, hmissing⟩ := ready_of_blank_table hmapper hram (by decide) (by decide)
    htop hroot (fun c _ _ => by rw [hmemory, Memory.zeroed, Memory.byte_filled]) hframes
    (hregion ▸ by decide) (hregion ▸ by decide) (hbitmap ▸ by decide)
  refine ⟨totals, m, m', r, hinit, hapart, hmapper, DirectMap.reaches_lowerHalf hram (by decide), ?_,
    hready, by omega, hback⟩
  rw [hbitmap]
  exact Set.Ico_subset_Ico (by decide) (by decide)

/-- One usable frame, and a short usable entry for its bitmap. -/
def shortMap : List MapEntry :=
  [⟨0, 0x4000, .reserved⟩, ⟨0x4000, 0x1000, .usable⟩, ⟨0xe000, 0x800, .usable⟩]

def bitmapChain : List Frame := [⟨1, by decide⟩, ⟨2, by decide⟩, ⟨3, by decide⟩, ⟨14, by decide⟩]

/-- Memory with a chain of tables that ends with the frame of the bitmap. -/
def chainedToBitmap : Memory :=
  .filled fun a =>
    if a = 0x200000001008 then 0x03 else if a = 0x200000001009 then 0x20
    else if a = 0x200000002008 then 0x03 else if a = 0x200000002009 then 0x30
    else if a = 0x200000003008 then 0x03 else if a = 0x200000003009 then 0xe0 else 0

theorem bytes_bitmapChain : ∀ f ∈ bitmapChain, f.bytes ⊆ Set.Ico 0 0x400000 := by
  intro f hf
  simp only [bitmapChain, List.mem_cons, List.not_mem_nil, or_false] at hf
  rcases hf with rfl | rfl | rfl | rfl <;> exact Set.Ico_subset_Ico (by decide) (by decide)

theorem hasChain_chainedToBitmap (hsees : m.Sees ⟨0x200000000000⟩ (Set.Ico 0 0x400000))
    (hmemory : m.memory = chainedToBitmap) (htop : m.topTable = ⟨1, by decide⟩) :
    HasChain m bitmapChain := by
  refine ⟨congrArg some htop.symm, fun k f i e hk he hpresent => ?_⟩
  rw [hsees.readEntry_lowerHalf (by decide) (bytes_bitmapChain f (List.mem_of_getElem? hk)),
    hmemory] at he
  obtain rfl := Option.some.inj (Except.ok.inj he)
  have hnonzero : chainedToBitmap.word (0x200000000000 + f.base.val + 8 * i.val) ≠ 0 := by
    intro hzero
    rw [Entry.isPresent, hzero] at hpresent
    contradiction
  have hlink : f.number < 16 → (f.number = 1 ∨ f.number = 2 ∨ f.number = 3) ∧ i.val = 1 := by
    intro hlt
    by_contra hother
    refine hnonzero (Memory.word_eq_zero fun c h₁ h₂ => ?_)
    have hi := i.isLt
    simp only [Frame.base] at h₁ h₂
    rw [chainedToBitmap, Memory.byte_filled]
    repeat rw [if_neg (by omega)]
  rcases k with _ | _ | _ | _ | k
  case succ.succ.succ.zero =>
    obtain rfl := Option.some.inj hk
    simp at hlink
  case succ.succ.succ.succ => simp [bitmapChain] at hk
  all_goals
    obtain rfl := Option.some.inj hk
    have hindex : i.val = 1 := (hlink (by decide)).2
    obtain rfl : i = 1 := Fin.ext hindex
    exact ⟨rfl, by decide +kernel⟩

/-- Tables that form a tree apart from the free frames, the last of which is in the frame of the
bitmap. The only free frame is taken for the first page of the heap, and none is left for its
tables. By then the bit of the frame that was taken has made an entry present, so an address outside
the heap is translated that was not before. -/
theorem bitmap_table_changes_translation :
    ∃ (totals : MemoryTotals) (m m' : Machine) (r : ResidentAllocator) (e : MemoryError),
      Kernel.setUpMemory shortMap 0x200000000000 (smallMachine chainedToBitmap) =
        .ok (.ok totals) m ∧
      m.Housed ⟨0x200000000000⟩ (Set.Ico 0 0x400000) r ∧ Ready m (Set.Ico 0 0x400000) r ∧
      r.free < 256 + m.missing (page 0).way ∧
      Kernel.backHeap m = .ok (.error e) m' ∧ Exhausts e ∧ ¬ SameOutside m m' := by
  obtain ⟨totals, m, r, m₁, m', hinit, hmapper, hram, hmemory, htop, hframes, hregion, hbitmap,
    hfree, hroot, hallocate, hmap, hbefore, hafter⟩ :
      ∃ totals m r m₁ m',
        Kernel.setUpMemory shortMap 0x200000000000 (smallMachine chainedToBitmap) =
          .ok (.ok totals) m ∧
        m.mapper = some ⟨0x200000000000⟩ ∧ m.ram = ⟨0x200000000000, 0x400000⟩ ∧
        m.memory = chainedToBitmap ∧ m.topTable = ⟨1, by decide⟩ ∧ m.frames = some r ∧
        r.region = ⟨⟨0x4000, by decide⟩, 0x1000⟩ ∧
        r.bitmapRegion = ⟨⟨0xe000, by decide⟩, 1⟩ ∧ r.free = 1 ∧
        rootTable m = .ok (.ok ⟨1, by decide⟩) ∧
        Kernel.allocateFrame m = .ok (some ⟨4, by decide⟩) m₁ ∧
        Kernel.mapPage ⟨0xffffffff00000000, by decide⟩ ⟨0x4000, by decide⟩ attributes m₁ =
          .ok (.error (.paging (.noMemory .pml4))) m' ∧
        Kernel.translate ⟨0x8040200000, by decide⟩ m = .ok none m ∧
        Kernel.translate ⟨0x8040200000, by decide⟩ m' = .ok (some ⟨0, by decide⟩) m' :=
    ⟨_, _, _, _, _, rfl, rfl, rfl, rfl, rfl, rfl, rfl, rfl, rfl, rfl, rfl, rfl, rfl, rfl⟩
  have hsees : m.Sees ⟨0x200000000000⟩ (Set.Ico 0 0x400000) :=
    ⟨hmapper, DirectMap.reaches_lowerHalf hram (by decide)⟩
  have hread : m.readEntry ⟨1, by decide⟩ 511 = .ok (some ⟨0⟩) := by
    have hword : chainedToBitmap.word 0x200000001ff8 = 0 := by decide +kernel
    rw [hsees.readEntry_lowerHalf (by decide) (bytes_bitmapChain _ List.mem_cons_self), hmemory]
    exact congrArg (fun w => Except.ok (some (Entry.mk w))) hword
  obtain ⟨hvacant, hmissing⟩ := isVacant_of_absent (e := ⟨0⟩) (htop ▸ hroot) (htop ▸ hread) rfl
  have hhoused : m.Housed ⟨0x200000000000⟩ (Set.Ico 0 0x400000) r :=
    housed_lowerHalf hmapper hram (by decide) (hregion ▸ by decide) (hbitmap ▸ by decide)
  refine ⟨totals, m, m', r, _, hinit, hhoused,
    ⟨hframes, ?_, hvacant, hregion ▸ by decide, hregion ▸ by decide⟩, by omega,
    backHeap_eq_error ((mapPages_of_some hallocate).trans (bind_error hmap)), .inr ⟨_, rfl⟩, ?_⟩
  · refine (hasChain_chainedToBitmap hsees hmemory htop).hasTree (by decide) bytes_bitmapChain
      fun f hf => ?_
    simp only [bitmapChain, List.mem_cons, List.not_mem_nil, or_false] at hf
    rcases hf with rfl | rfl | rfl | rfl <;> simp [hregion, Extent.bytes, Frame.base]
  · intro hsame
    obtain ⟨p, hp, hp'⟩ := hsame ⟨0x8040200000, by decide⟩ (by simp [Covers, start])
    cases hp.symm.trans hbefore
    cases hp'.symm.trans hafter

end Heap

end KernelCore
