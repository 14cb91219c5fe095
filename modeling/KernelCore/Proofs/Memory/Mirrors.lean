import KernelCore.Proofs.Memory.Separation
import KernelCore.Proofs.Paging.Simulation

/-!
# The loaded tables and an arena

The kernel reaches its tables by address, through `cr3` and the direct map, and keeps its allocator
in the same memory. An arena has its tables by the number of their frame and its allocator beside
them. Over tables with the same contents the two answer alike, as long as the walks stay inside a
set of frames that lies apart from the bitmap. A table that shares a byte with the bitmap is seen to
change when a frame is handed out, which no arena shows.
-/

namespace KernelCore

namespace FrameAllocator

/-- Whatever comes of a request for a frame, the books stay in their place. -/
theorem samePlace_of_allocateFrame (a : FrameAllocator) :
    (∃ f b, allocateFrame a = .ok f b ∧ SamePlace a b) ∨
      ∃ stop b, allocateFrame a = .error stop b ∧ SamePlace a b := by
  unfold allocateFrame
  cases hreserve : a.reserveFrame with
  | none => exact .inl ⟨none, a, rfl, .refl a⟩
  | some taken =>
    obtain ⟨i, b⟩ := taken
    have hplace : SamePlace a b := by
      rw [reserveFrame] at hreserve
      split at hreserve
      · contradiction
      · obtain ⟨j, -, hj⟩ := Option.map_eq_some_iff.mp hreserve
        obtain ⟨rfl, rfl⟩ := Prod.mk.inj hj
        exact samePlace_take a j
    simp only
    cases b.addressOf i with
    | ok p => exact .inl ⟨_, b, rfl, hplace⟩
    | error stop => exact .inr ⟨stop, b, rfl, hplace⟩

end FrameAllocator

namespace Machine

open FrameAllocator DirectMap

/-- The pages whose translation was dropped, the latest first. -/
def invalidations (m : Machine) : List VirtAddr :=
  m.events.filterMap fun
    | .invalidatePage v => some v
    | _ => none

/-- The physical addresses `ram` lie below the offset at which the kernel reaches them, and all of
them are there. -/
structure Maps (m : Machine) (map : DirectMap) (ram : Set ℕ) : Prop where
  mapper : m.mapper = some map
  physical : ∀ p ∈ ram, p < 0x10000000000000
  below : ∀ p ∈ ram, p < map.offset.toNat
  canonical : ∀ p ∈ ram, ∃ v : VirtAddr, v.val = map.offset.toNat + p
  present : ∀ p ∈ ram, m.ram.covers (map.offset.toNat + p) 1 = true

variable {m m' : Machine} {map : DirectMap} {ram : Set ℕ} {within : Frame → Bool}
  {r : ResidentAllocator} {a : Arena} {f : Frame} {i : TableIndex} {e : Entry}

theorem Maps.toVirt (h : m.Maps map ram) {p : PhysAddr} (hp : p.val ∈ ram) :
    ∃ v, map.toVirt p = .ok v ∧ v.val = map.offset.toNat + p.val := by
  obtain ⟨v, hv⟩ := h.canonical p.val hp
  exact ⟨v, toVirt_of_below (h.below p.val hp) hv, hv⟩

theorem Maps.place_eq (h : m.Maps map ram) {x : ℕ} (hx : x ∈ ram) :
    map.place x = map.offset.toNat + x := by
  obtain ⟨v, hv, hval⟩ := h.toVirt (p := ⟨x, h.physical x hx⟩) hx
  rw [← hval]
  exact DirectMap.place_eq (p := ⟨x, h.physical x hx⟩) hv

theorem Maps.sees (h : m.Maps map ram) : m.Sees map ram := by
  refine ⟨h.mapper, ?_, ?_, ?_⟩
  · intro x hx
    obtain ⟨v, hv, hval⟩ := h.toVirt (p := ⟨x, h.physical x hx⟩) hx
    exact ⟨_, v, rfl, hv, hval ▸ h.present x hx⟩
  · intro x hx y hy hxy
    rw [h.place_eq hx, h.place_eq hy] at hxy
    omega
  · intro x hx hx'
    rw [h.place_eq hx, h.place_eq hx', Nat.add_assoc]

/-- The tables of the frames `within` are reached, and lie apart from the bitmap. -/
structure Backed (within : Frame → Bool) (map : DirectMap) (ram : Set ℕ) (m : Machine)
    (r : ResidentAllocator) : Prop where
  sees : m.Sees map ram
  frames : m.frames = some r
  inRam : ∀ f, within f = true → f.bytes ⊆ ram
  nonzero : ∀ f, within f = true → map.place f.base.val ≠ 0
  apart : ∀ f, within f = true → ∀ x ∈ f.bytes,
    map.place x < r.storage.val ∨ r.storage.val + r.size ≤ map.place x

/-- The arena has the same tables in the frames `within` as the machine, the same allocator and the
same root, and the same pages were invalidated. -/
structure Mirrors (within : Frame → Bool) (m : Machine) (a : Arena) : Prop where
  root : a.root = some m.topTable
  reached : ∀ f, within f = true → a.reaches f
  cells : ∀ f, within f = true → ∀ i, m.readEntry f i = .ok (a.read? f i)
  frames : m.frames.map (·.load m.memory) = some a.frames
  invalidated : a.invalidated = m.invalidations

theorem Maps.place_ne_zero (h : m.Maps map ram) {x : ℕ} (hx : x ∈ ram) : map.place x ≠ 0 := by
  have hbelow := h.below x hx
  rw [h.place_eq hx]
  omega

theorem Maps.backed (h : m.Maps map ram) (hframes : m.frames = some r)
    (hinRam : ∀ f, within f = true → f.bytes ⊆ ram)
    (hapart : ∀ f, within f = true → ∀ p ∈ f.bytes, map.offset.toNat + p < r.storage.val ∨
      r.storage.val + r.size ≤ map.offset.toNat + p) : Backed within map ram m r := by
  refine ⟨h.sees, hframes, hinRam, fun f hf => h.place_ne_zero (hinRam f hf f.base_mem_bytes),
    fun f hf p hp => ?_⟩
  rw [h.place_eq (hinRam f hf hp)]
  exact hapart f hf p hp

theorem Mirrors.cell_eq (h : Mirrors within m a) (hf : within f = true)
    (hread : m.readEntry f i = .ok (some e)) : a.cell f i = e := by
  have hcell := (h.cells f hf i).symm.trans hread
  rw [Arena.cell, Except.ok.inj hcell, Option.getD_some]

/-- The entry of a number, with the tables of all frames taken one after the other. -/
def entryAt (m : Machine) (k : ℕ) : Entry :=
  match m.readEntry ⟨k / 512 % 0x10000000000, Nat.mod_lt _ (by decide)⟩
      ⟨k % 512, Nat.mod_lt _ (by decide)⟩ with
  | .ok (some e) => e
  | _ => .absent

/-- An arena with the tables of the first `n` frames. -/
def mirror (m : Machine) (n : ℕ) (frames : FrameAllocator) : Arena where
  base := ⟨0, by decide⟩
  count := n
  entries := Array.ofFn fun k : Fin (n * 512) => m.entryAt k
  size_entries := Array.size_ofFn
  root := some m.topTable
  frames := frames
  invalidated := m.invalidations

theorem tableNumber?_mirror {n : ℕ} (frames : FrameAllocator) (hf : f.number < n) :
    (m.mirror n frames).tableNumber? f = some f.number := by
  have hnumber : (f.base.val - 0) / 4096 = f.number := by
    simp only [Frame.base]
    omega
  simp only [Arena.tableNumber?, mirror, hnumber]
  exact if_pos ⟨Nat.zero_le _, hf⟩

theorem read?_mirror {n : ℕ} (frames : FrameAllocator) (hf : f.number < n)
    (hread : m.readEntry f i = .ok (some e)) : (m.mirror n frames).read? f i = some e := by
  have hi := i.isLt
  have hlt := f.lt
  have hk : f.number * 512 + i.val < n * 512 := by omega
  have hentry : m.entryAt (f.number * 512 + i.val) = e := by
    have hframe : (⟨(f.number * 512 + i.val) / 512 % 0x10000000000, Nat.mod_lt _ (by decide)⟩ :
        Frame) = f := by
      ext1
      simp only
      omega
    have hindex : (⟨(f.number * 512 + i.val) % 512, Nat.mod_lt _ (by decide)⟩ : TableIndex) =
        i := by
      ext1
      simp only
      omega
    rw [entryAt, hframe, hindex, hread]
  rw [Arena.read?, tableNumber?_mirror frames hf, Option.map_some]
  simp only [mirror, Array.getElem?_ofFn, dif_pos hk, Option.getD_some, hentry]

/-- Every machine has an arena that mirrors it. -/
theorem Sees.mirrors {n : ℕ} (h : m.Sees map ram) (hframes : m.frames = some r)
    (hinRam : ∀ f, within f = true → f.bytes ⊆ ram)
    (hnonzero : ∀ f, within f = true → map.place f.base.val ≠ 0)
    (hn : ∀ f, within f = true → f.number < n) :
    Mirrors within m (m.mirror n (r.load m.memory)) where
  root := rfl
  reached f hf := by rw [Arena.reaches, tableNumber?_mirror _ (hn f hf), Option.isSome_some]
  cells f hf i := by
    have hread := h.readEntry_eq (hinRam f hf) i
    rw [if_neg (hnonzero f hf)] at hread
    rw [read?_mirror _ (hn f hf) hread, hread]
  frames := by rw [hframes, Option.map_some]; rfl
  invalidated := rfl

theorem Maps.mirrors {n : ℕ} (h : m.Maps map ram) (hframes : m.frames = some r)
    (hinRam : ∀ f, within f = true → f.bytes ⊆ ram) (hn : ∀ f, within f = true → f.number < n) :
    Mirrors within m (m.mirror n (r.load m.memory)) :=
  h.sees.mirrors hframes hinRam (fun f hf => h.place_ne_zero (hinRam f hf f.base_mem_bytes)) hn

/-! ## Primitives -/

theorem Backed.tableAddress?_eq (h : Backed within map ram m r) (hf : within f = true) :
    m.tableAddress? f = .ok (some (map.place f.base.val)) := by
  rw [h.sees.tableAddress?_eq (h.inRam f hf), if_neg (h.nonzero f hf)]

/-- Memory outside a table holds the whole bitmap. -/
theorem Backed.load_eq (h : Backed within map ram m r) (hf : within f = true) {memory : Memory}
    (hsame : ∀ c, c < map.place f.base.val ∨ map.place f.base.val + 4096 ≤ c →
      memory.byte c = m.memory.byte c) : r.load memory = r.load m.memory := by
  apply ResidentAllocator.load_congr
  intro c h₁ h₂
  apply hsame
  by_contra hinside
  obtain ⟨k, rfl⟩ : ∃ k, c = map.place f.base.val + k := ⟨c - map.place f.base.val, by omega⟩
  have hk : k < 4096 := by omega
  have hapart := h.apart f hf (f.base.val + k) ⟨by omega, by omega⟩
  rw [h.sees.reaches.place_add (h.inRam f hf) hk] at hapart
  omega

theorem Backed.touches (h : Backed within map ram m r) (htouches : Touches map f m m') :
    Backed within map ram m' r :=
  ⟨htouches.sees h.sees, htouches.frames.trans h.frames, h.inRam, h.nonzero, h.apart⟩

/-- What is logged is of no account. -/
theorem Backed.logged (h : Backed within map ram m r) (console : Console) :
    Backed within map ram { m with console } r :=
  ⟨⟨h.sees.mapper, h.sees.reaches⟩, h.frames, h.inRam, h.nonzero, h.apart⟩

theorem Mirrors.logged (h : Mirrors within m a) (console : Console) :
    Mirrors within { m with console } a :=
  ⟨h.root, h.reached, h.cells, h.frames, h.invalidated⟩

theorem Mirrors.load_eq (h : Mirrors within m a) (hb : Backed within map ram m r) :
    r.load m.memory = a.frames := by
  have hframes := h.frames
  rw [hb.frames, Option.map_some] at hframes
  exact Option.some.inj hframes

/-- The same table is changed on both sides. -/
theorem Mirrors.touches {b : Arena} (h : Mirrors within m a) (hb : Backed within map ram m r)
    (hf : within f = true) (htouches : Touches map f m m') (hevents : m'.events = m.events)
    (halike : Arena.Alike a b) (hframes : b.frames = a.frames)
    (hinvalidated : b.invalidated = a.invalidated)
    (hsame : ∀ g, g ≠ f → ∀ i, b.read? g i = a.read? g i)
    (hcells : ∀ i, m'.readEntry f i = .ok (b.read? f i)) : Mirrors within m' b := by
  refine ⟨?_, fun g hg => (halike.reaches g).mpr (h.reached g hg), fun g hg i => ?_, ?_, ?_⟩
  · rw [halike.root, htouches.topTable_eq, h.root]
  · by_cases hgf : g = f
    · rw [hgf]
      exact hcells i
    · rw [hsame g hgf, htouches.readEntry_of_ne hb.sees (hb.inRam f hf) (hb.inRam g hg) hgf]
      exact h.cells g hg i
  · rw [htouches.frames, hb.frames, hframes, Option.map_some, hb.load_eq hf htouches.outside,
      h.load_eq hb]
  · rw [hinvalidated, h.invalidated, invalidations, invalidations, hevents]

theorem events_of_writeEntry (h : m.writeEntry f i e = .ok (some m')) : m'.events = m.events := by
  unfold writeEntry at h
  split at h
  · contradiction
  · exact absurd (Except.ok.inj h) nofun
  · split at h
    · rw [← Option.some.inj (Except.ok.inj h)]
    · contradiction

theorem events_of_clearTable (h : m.clearTable f = .ok (some m')) : m'.events = m.events := by
  unfold clearTable at h
  split at h
  · contradiction
  · exact absurd (Except.ok.inj h) nofun
  · split at h
    · rw [← Option.some.inj (Except.ok.inj h)]
    · contradiction

theorem Mirrors.write (h : Mirrors within m a) (hb : Backed within map ram m r)
    (hf : within f = true) (i : TableIndex) (e : Entry) :
    ∃ m' b, m.writeEntry f i e = .ok (some m') ∧ a.write? f i e = some b ∧
      Backed within map ram m' r ∧ Mirrors within m' b := by
  rcases hb.sees.writeEntry_cases (hb.inRam f hf) i e with hnone | ⟨m', hsome, htouches, hread⟩
  · simp only [writeEntry, hb.tableAddress?_eq hf] at hnone
    split at hnone <;> simp at hnone
  · obtain ⟨b, hwrite, hwrote, hinvalidated⟩ := Arena.write?_eq_some (h.reached f hf) i e
    refine ⟨m', b, hsome, hwrite, hb.touches htouches, h.touches hb hf htouches
      (events_of_writeEntry hsome) hwrote.alike hwrote.frames hinvalidated (fun g hg j => ?_)
      fun j => ?_⟩
    · rw [Arena.read?_write? hwrite, if_neg fun hsame => hg hsame.1.symm]
    · rw [hread, Arena.read?_write? hwrite]
      by_cases hij : j = i
      · rw [if_pos hij, if_pos ⟨rfl, hij.symm⟩]
      · rw [if_neg hij, if_neg fun hsame => hij hsame.2.symm]
        exact h.cells f hf j

theorem Mirrors.clear (h : Mirrors within m a) (hb : Backed within map ram m r)
    (hf : within f = true) :
    ∃ m' b, m.clearTable f = .ok (some m') ∧ a.fillTable? f .absent = some b ∧
      Backed within map ram m' r ∧ Mirrors within m' b := by
  rcases hb.sees.clearTable_cases (hb.inRam f hf) with hnone | ⟨m', hsome, htouches, hread⟩
  · simp only [clearTable, hb.tableAddress?_eq hf] at hnone
    split at hnone <;> simp at hnone
  · obtain ⟨b, hfill, halike, hframes, hinvalidated, -⟩ :=
      Arena.fillTable?_eq_some (h.reached f hf) .absent
    refine ⟨m', b, hsome, hfill, hb.touches htouches, h.touches hb hf htouches
      (events_of_clearTable hsome) halike hframes hinvalidated (fun g hg j => ?_) fun j => ?_⟩
    · rw [Arena.read?_fillTable? hfill, if_neg (Ne.symm hg)]
    · rw [hread, Arena.read?_fillTable? hfill, if_pos rfl]

/-- Both allocators take their books to the same state. -/
theorem Mirrors.storing {b : FrameAllocator} (h : Mirrors within m a)
    (hb : Backed within map ram m r) (hplace : SamePlace a.frames b) :
    Backed within map ram (m.storing r b) (r.store b m.memory).1 ∧
      Mirrors within (m.storing r b) { a with frames := b } := by
  have hplace' : SamePlace (r.load m.memory) b := by rwa [h.load_eq hb]
  have hsees : (m.storing r b).Sees map ram := ⟨hb.sees.mapper, hb.sees.reaches⟩
  refine ⟨⟨hsees, rfl, hb.inRam, hb.nonzero, hb.apart⟩, h.root, h.reached, fun f hf i => ?_, ?_,
    h.invalidated⟩
  · have hread := hb.sees.readEntry_congr hsees (hb.inRam f hf) (fun x hx =>
      ResidentAllocator.byte_store hplace' (hb.apart f hf x hx)) i
    rw [hread]
    exact h.cells f hf i
  · exact congrArg some (ResidentAllocator.load_store hplace')

theorem allocateFrame_eq (hframes : m.frames = some r) :
    Kernel.allocateFrame m = match FrameAllocator.allocateFrame (r.load m.memory) with
      | .ok f b => .ok f (m.storing r b)
      | .error stop b => .error (.panic stop) (m.storing r b) := by
  simp only [Kernel.allocateFrame, bind, EStateM.bind, Kernel.onFrames, hframes]
  cases FrameAllocator.allocateFrame (r.load m.memory) with
  | ok f b => rfl
  | error stop b => rfl

open Paging in
/-- A machine answers like an arena that mirrors it, where it does. -/
theorem agreesWithin_mirrors (within : Frame → Bool) (map : DirectMap) (ram : Set ℕ) :
    Confined.AgreesWithin within fun (m : Machine) (a : Arena) =>
      ∃ r, Backed within map ram m r ∧ Mirrors within m a where
  root := by
    rintro m a ⟨r, -, h⟩
    exact h.root.symm
  holds := by
    rintro f m a hf ⟨r, hb, h⟩
    have hreached : (a.tableNumber? f).isSome = true := h.reached f hf
    show (m.tableAddress? f).map Option.isSome = .ok (a.tableNumber? f).isSome
    rw [hb.tableAddress?_eq hf, hreached]
    rfl
  read := by
    rintro f i m a hf ⟨r, hb, h⟩
    exact h.cells f hf i
  write := by
    rintro f i e m a hf ⟨r, hb, h⟩
    obtain ⟨m', b, hm', hwrite, hb', h'⟩ := h.write hb hf i e
    show Writes _ (m.writeEntry f i e) (.ok (a.write? f i e))
    rw [hm', hwrite]
    exact .done ⟨r, hb', h'⟩
  clear := by
    rintro f m a hf ⟨r, hb, h⟩
    obtain ⟨m', b, hm', hfill, hb', h'⟩ := h.clear hb hf
    show Writes _ (m.clearTable f) (.ok (a.fillTable? f .absent))
    rw [hm', hfill]
    exact .done ⟨r, hb', h'⟩
  invalidate := by
    rintro v m a ⟨r, hb, h⟩
    exact ⟨r, ⟨⟨hb.sees.mapper, hb.sees.reaches⟩, hb.frames, hb.inRam, hb.nonzero, hb.apart⟩,
      h.root, h.reached, h.cells, h.frames, congrArg (v :: ·) h.invalidated⟩
  allocateFrame := by
    rintro m a ⟨r, hb, h⟩
    have hload := h.load_eq hb
    show Results _ (Kernel.allocateFrame m) (Arena.allocateFrame a)
    rw [allocateFrame_eq hb.frames, hload, Arena.allocateFrame]
    rcases samePlace_of_allocateFrame a.frames with ⟨f, b, hok, hplace⟩ | ⟨stop, b, herror, hplace⟩
    · rw [hok]
      exact .done f ⟨_, h.storing hb hplace⟩
    · rw [herror]
      exact .stopped _ ⟨_, h.storing hb hplace⟩

end Machine

/-! ## Calls to the memory manager -/

namespace Paging

open Machine

variable {m m' : Machine} {halt : Halt}

/-- Makes a call to the memory manager. -/
def Call.onKernel : Call → Kernel (Answer MemoryError)
  | .map v p attributes => .changed <$> (Kernel.mapPage v p attributes).run
  | .unmap v => .changed <$> (Kernel.unmapPage v).run
  | .translate v => .found <$> Kernel.translate v

/-- But for what is logged, a walk is carried out as it is. -/
theorem walk_eq_ok {w : Walk Machine Unit} {r : Except PagingError Unit} (h : w m = .ok r m') :
    ∃ console, Kernel.walk w m = .ok (r.mapError .paging) { m' with console } := by
  have hrun : (w.run : Kernel (Except PagingError Unit)) m = .ok r m' := h
  rw [Kernel.walk, Kernel.lift_bind_ok hrun]
  cases r with
  | ok x => exact ⟨m'.console, rfl⟩
  | error e =>
    cases hrecord : e.record? with
    | none => exact ⟨m'.console, by simp only [hrecord]; rfl⟩
    | some record => exact ⟨m'.console.log ⟨record.level, record.text⟩, by simp only [hrecord]; rfl⟩

theorem walk_eq_error {w : Walk Machine Unit} (h : w m = .error halt m') :
    Kernel.walk w m = .error halt m' := by
  have hrun : (w.run : Kernel (Except PagingError Unit)) m = .error halt m' := h
  rw [Kernel.walk, Kernel.lift_bind_error hrun]

theorem mapPage_eq (hmapper : m.mapper.isSome = true) (hframes : m.frames.isSome = true)
    (v : VirtAddr) (p : PhysAddr) (attributes : UInt64) :
    Kernel.mapPage v p attributes m = Kernel.walk (map v p attributes) m := by
  apply (Kernel.lift_bind_ok (x := (get : Kernel Machine)) rfl).trans
  rw [if_pos (by rw [hmapper, hframes]; rfl)]

theorem unmapPage_eq (hmapper : m.mapper.isSome = true) (v : VirtAddr) :
    Kernel.unmapPage v m = Kernel.walk (unmap v) m := by
  apply (Kernel.lift_bind_ok (x := (get : Kernel Machine)) rfl).trans
  rw [if_pos hmapper]

theorem translate_eq (hmapper : m.mapper.isSome = true) (v : VirtAddr) :
    Kernel.translate v m = Kernel.guarded (translate m v) m := by
  simp only [Kernel.translate, bind, EStateM.bind, get, getThe, MonadStateOf.get, EStateM.get,
    hmapper, if_true]

theorem map_eq_ok {σ α β : Type} {x : EStateM Halt σ α} {s s' : σ} {b : β} {f : α → β}
    (h : (f <$> x) s = .ok b s') : ∃ a, x s = .ok a s' ∧ f a = b := by
  simp only [Functor.map, EStateM.map] at h
  split at h
  · obtain ⟨rfl, rfl⟩ := EStateM.Result.ok.inj h
    exact ⟨_, ‹_›, rfl⟩
  · contradiction

theorem map_eq_error {σ α β : Type} {x : EStateM Halt σ α} {s s' : σ} {f : α → β}
    (h : (f <$> x) s = .error halt s') : x s = .error halt s' := by
  simp only [Functor.map, EStateM.map] at h
  split at h
  · contradiction
  · obtain ⟨rfl, rfl⟩ := EStateM.Result.error.inj h
    assumption

section Changes

variable {w : Walk Machine Unit} {k : ExceptT MemoryError Kernel Unit}
  (hcall : k m = Kernel.walk w m)

include hcall

/-- A call that is a walk once the memory manager is ready. -/
theorem changed_eq_ok {x : Answer PagingError} (h : (.changed <$> w.run) m = .ok x m') :
    ∃ console, (.changed <$> k.run) m = .ok (x.wrap .paging) { m' with console } := by
  obtain ⟨r, hr, rfl⟩ := map_eq_ok h
  obtain ⟨console, hwalk⟩ := walk_eq_ok hr
  refine ⟨console, ?_⟩
  simp only [Functor.map, EStateM.map, ExceptT.run, hcall.trans hwalk]
  rfl

theorem changed_eq_error (h : (Answer.changed <$> w.run) m = .error halt m') :
    (Answer.changed <$> k.run) m = .error halt m' := by
  have hwalk := walk_eq_error (map_eq_error h)
  simp only [Functor.map, EStateM.map, ExceptT.run, hcall.trans hwalk]

end Changes

/-- The memory manager answers what the walk over its tables answers, with errors of its own. -/
theorem Call.onKernel_eq_ok {call : Call} {x : Answer PagingError}
    (hmapper : m.mapper.isSome = true) (hframes : m.frames.isSome = true)
    (h : call.onTables m = .ok x m') :
    ∃ console, call.onKernel m = .ok (x.wrap .paging) { m' with console } := by
  cases call with
  | map v p attributes => exact changed_eq_ok (mapPage_eq hmapper hframes v p attributes) h
  | unmap v => exact changed_eq_ok (unmapPage_eq hmapper v) h
  | translate v =>
    simp only [Call.onTables] at h
    split at h
    · contradiction
    · rename_i p hp
      obtain ⟨rfl, rfl⟩ := EStateM.Result.ok.inj h
      refine ⟨m.console, ?_⟩
      simp only [Call.onKernel, Functor.map, EStateM.map, translate_eq hmapper, hp]
      rfl

theorem Call.onKernel_eq_error {call : Call} (hmapper : m.mapper.isSome = true)
    (hframes : m.frames.isSome = true) (h : call.onTables m = .error halt m') :
    call.onKernel m = .error halt m' := by
  cases call with
  | map v p attributes => exact changed_eq_error (mapPage_eq hmapper hframes v p attributes) h
  | unmap v => exact changed_eq_error (unmapPage_eq hmapper v) h
  | translate v =>
    simp only [Call.onTables] at h
    split at h
    · rename_i halt' hhalt
      obtain ⟨rfl, rfl⟩ := EStateM.Result.error.inj h
      simp only [Call.onKernel, Functor.map, EStateM.map, translate_eq hmapper, hhalt]
      rfl
    · contradiction

/-! ## Runs -/

variable {map : DirectMap} {ram : Set ℕ} {within : Frame → Bool} {r : ResidentAllocator} {a : Arena}

/-- Whether the walks of the calls, made one after the other, touch only the tables `within`. -/
def staysWithin (within : Frame → Bool) : List Call → Machine → Bool
  | [], _ => true
  | call :: rest, m =>
    match call.onTables (⟨m⟩ : Confined Machine within) with
    | .error .fault _ => false
    | _ =>
      match call.onKernel m with
      | .ok _ m' => staysWithin within rest m'
      | .error _ _ => true

theorem staysWithin_cons {call : Call} {rest : List Call}
    (h : staysWithin within (call :: rest) m = true) :
    (∀ c, call.onTables (⟨m⟩ : Confined Machine within) ≠ .error .fault c) ∧
      ∀ x m', call.onKernel m = .ok x m' → staysWithin within rest m' = true := by
  rw [staysWithin] at h
  split at h
  · contradiction
  · rename_i hstay
    refine ⟨hstay, fun x m' hkernel => ?_⟩
    rwa [hkernel] at h

section Lists

variable {σ α β : Type} {f : α → EStateM Halt σ β} {x : α} {xs : List α} {y : β} {ys : List β}
  {s s' s'' : σ}

theorem mapM_eq_ok (h : f x s = .ok y s') (hrest : xs.mapM f s' = .ok ys s'') :
    (x :: xs).mapM f s = .ok (y :: ys) s'' := by
  simp only [List.mapM_cons, bind, EStateM.bind, h, hrest]
  rfl

theorem mapM_eq_error (h : f x s = .error halt s') : (x :: xs).mapM f s = .error halt s' := by
  simp only [List.mapM_cons, bind, EStateM.bind, h]

theorem mapM_eq_error_of_rest (h : f x s = .ok y s') (hrest : xs.mapM f s' = .error halt s'') :
    (x :: xs).mapM f s = .error halt s'' := by
  simp only [List.mapM_cons, bind, EStateM.bind, h, hrest]

end Lists

/-- Both runs come to the same answers, or stop in the same way. -/
theorem runs_agree {calls : List Call} (hb : Backed within map ram m r)
    (h : Mirrors within m a) (hstay : staysWithin within calls m = true) :
    (∃ answers m' a', calls.mapM Call.onKernel m = .ok (answers.map (·.wrap .paging)) m' ∧
        calls.mapM Call.onTables a = .ok answers a' ∧ Mirrors within m' a') ∨
      ∃ halt m' a', halt ≠ .fault ∧ calls.mapM Call.onKernel m = .error halt m' ∧
        calls.mapM Call.onTables a = .error halt a' ∧ Mirrors within m' a' := by
  induction calls generalizing m r a with
  | nil => exact .inl ⟨[], m, a, rfl, rfl, h⟩
  | cons call rest ih =>
    obtain ⟨hfirst, hrest⟩ := staysWithin_cons hstay
    have hmapper : m.mapper.isSome = true := by rw [hb.sees.mapper]; rfl
    have hframes : m.frames.isSome = true := by rw [hb.frames]; rfl
    rcases (agreesWithin_mirrors within map ram).call call m a ⟨r, hb, h⟩ hfirst with
      ⟨x, m₁, a₁, hm, ha, r₁, hb₁, h₁⟩ | ⟨halt, m₁, a₁, hne, hm, ha, r₁, -, h₁⟩
    · obtain ⟨console, hkernel⟩ := Call.onKernel_eq_ok hmapper hframes hm
      rcases ih (hb₁.logged console) (h₁.logged console) (hrest _ _ hkernel) with
        ⟨answers, m', a', hm', ha', h'⟩ | ⟨halt, m', a', hne, hm', ha', h'⟩
      · exact .inl ⟨x :: answers, m', a', mapM_eq_ok hkernel hm', mapM_eq_ok ha ha', h'⟩
      · exact .inr ⟨halt, m', a', hne, mapM_eq_error_of_rest hkernel hm',
          mapM_eq_error_of_rest ha ha', h'⟩
    · have hkernel := Call.onKernel_eq_error hmapper hframes hm
      exact .inr ⟨halt, m₁, a₁, hne, mapM_eq_error hkernel, mapM_eq_error ha, h₁⟩

/-- Where all of RAM lies below the offset of the direct map, the memory manager over the loaded
tables and the mapper over an arena with the same contents answer every run alike, as long as its
walks touch only tables that lie in RAM and apart from the bitmap. -/
theorem kernel_agrees_with_arena {calls : List Call} (hmaps : m.Maps map ram)
    (hframes : m.frames = some r) (hinRam : ∀ f, within f = true → f.bytes ⊆ ram)
    (hapart : ∀ f, within f = true → ∀ p ∈ f.bytes, map.offset.toNat + p < r.storage.val ∨
      r.storage.val + r.size ≤ map.offset.toNat + p)
    (hmirror : Mirrors within m a) (hstay : staysWithin within calls m = true) :
    (∃ answers m' a', calls.mapM Call.onKernel m = .ok (answers.map (·.wrap .paging)) m' ∧
        calls.mapM Call.onTables a = .ok answers a' ∧ Mirrors within m' a') ∨
      ∃ halt m' a', halt ≠ .fault ∧ calls.mapM Call.onKernel m = .error halt m' ∧
        calls.mapM Call.onTables a = .error halt a' ∧ Mirrors within m' a' :=
  runs_agree (hmaps.backed hframes hinRam hapart) hmirror hstay

/-! ## Small machines -/

/-- All memory of the small machine is reached at the offset of its direct map. -/
theorem maps_small (hmapper : m.mapper = some ⟨0x200000000000⟩)
    (hram : m.ram = ⟨0x200000000000, 0x400000⟩) :
    m.Maps ⟨0x200000000000⟩ (Set.Ico 0 0x400000) := by
  have hoffset : (0x200000000000 : UInt64).toNat = 0x200000000000 := rfl
  refine ⟨hmapper, ?_, ?_, ?_, ?_⟩
  · intro p hp
    have hlt := hp.2
    omega
  · intro p hp
    have hlt := hp.2
    simp only [hoffset]
    omega
  · intro p hp
    have hlt := hp.2
    exact ⟨⟨0x200000000000 + p, .inl (by omega)⟩, by rw [hoffset]⟩
  · intro p hp
    have hlt := hp.2
    rw [hram, hoffset, Span.covers_iff]
    simp only
    omega

/-- A page is mapped through a top table that links to itself, translated and unmapped. -/
theorem kernel_agrees_with_arena_of_self_link :
    let calls : List Call := [.map ⟨0xffffffffffe05000, by decide⟩ ⟨0x2000, by decide⟩ 2,
      .translate ⟨0xffffffffffe05678, by decide⟩, .unmap ⟨0xffffffffffe05000, by decide⟩]
    ∃ totals m m' a a' answers,
      Kernel.setUpMemory smallMap 0x200000000000 (smallMachine selfLinked) =
        .ok (.ok totals) m ∧
      Mirrors (·.number == 1) m a ∧ calls.mapM Call.onTables a = .ok answers a' ∧
      calls.mapM Call.onKernel m = .ok (answers.map (·.wrap .paging)) m' ∧
      Mirrors (·.number == 1) m' a' := by
  intro calls
  obtain ⟨totals, m, m', r, hinit, hmapper, hram, hframes, hstorage, hsize, hstay, hrun⟩ :
      ∃ totals m m' r,
        Kernel.setUpMemory smallMap 0x200000000000 (smallMachine selfLinked) =
          .ok (.ok totals) m ∧ m.mapper = some ⟨0x200000000000⟩ ∧
        m.ram = ⟨0x200000000000, 0x400000⟩ ∧ m.frames = some r ∧
        r.storage.val = 0x20000000e000 ∧ r.size = 2 ∧
        staysWithin (·.number == 1) calls m = true ∧
        calls.mapM Call.onKernel m =
          .ok [.changed (.ok ()), .found (some ⟨0x2678, by decide⟩), .changed (.ok ())] m' :=
    ⟨_, _, _, _, rfl, rfl, rfl, rfl, rfl, rfl, rfl, rfl⟩
  have hmaps := maps_small hmapper hram
  have hone : ∀ f : Frame, (f.number == 1) = true → f.bytes = Set.Ico 0x1000 0x2000 := by
    intro f hf
    have hnumber : f.number = 1 := by simpa using hf
    simp only [Frame.bytes, Frame.base, hnumber]
  have hinRam : ∀ f : Frame, (f.number == 1) = true → f.bytes ⊆ Set.Ico 0 0x400000 := by
    intro f hf
    rw [hone f hf]
    exact Set.Ico_subset_Ico (by decide) (by decide)
  have hmirror : Mirrors (·.number == 1) m (m.mirror 2 (r.load m.memory)) := by
    refine hmaps.mirrors hframes hinRam fun f hf => ?_
    have hnumber : f.number = 1 := by simpa using hf
    omega
  have hboth := kernel_agrees_with_arena hmaps hframes hinRam (fun f hf p hp => by
    rw [hone f hf] at hp
    have hlt := hp.2
    have hoffset : (0x200000000000 : UInt64).toNat = 0x200000000000 := rfl
    rw [hstorage, hsize, hoffset]
    omega) hmirror hstay
  rcases hboth with ⟨answers, m'', a', hm'', ha', h'⟩ | ⟨halt, m'', a', -, hm'', -⟩
  · exact ⟨totals, m, m'', _, a', answers, hinit, hmirror, ha', hm'', h'⟩
  · simp [hrun] at hm''

/-- Memory in which the top table links to itself and to the frame of the bitmap. -/
def selfAndBitmapLinked : Memory :=
  .filled fun a =>
    if a = 0x200000001008 then 0x03 else if a = 0x200000001009 then 0x10
    else if a = 0x200000001010 then 0x03 else if a = 0x200000001011 then 0xe0 else 0

/-- The page whose leaf is the first entry of the table in the frame of the bitmap. -/
def bitmapPage : VirtAddr := ⟨0x8040400000, by decide⟩

/-- A leaf that is written where the bitmap is marks frames as handed out. No arena sees that. -/
theorem leaf_in_bitmap_takes_frames :
    let call : Call := .map bitmapPage ⟨0x9000, by decide⟩ 0xfff
    ∃ totals m m' a a' r r',
      Kernel.setUpMemory smallMap 0x200000000000 (smallMachine selfAndBitmapLinked) =
        .ok (.ok totals) m ∧
      m.Maps ⟨0x200000000000⟩ (Set.Ico 0 0x400000) ∧ m.frames = some r ∧
      (∀ f : Frame, decide (f.number < 16) = true → f.bytes ⊆ Set.Ico 0 0x400000) ∧
      Mirrors (fun f => decide (f.number < 16)) m a ∧
      staysWithin (fun f => decide (f.number < 16)) [call] m = true ∧
      call.onKernel m = .ok (.changed (.ok ())) m' ∧ m'.frames = some r' ∧
      call.onTables a = .ok (.changed (.ok ())) a' ∧
      (r'.load m'.memory).isTaken 0 = true ∧ a'.frames.isTaken 0 = false := by
  intro call
  obtain ⟨totals, m, m', r, r', hinit, hmapper, hram, hframes, hfree, hroot, hlink, hlast, hleaf,
      hstay, hcall, hframes', htaken⟩ : ∃ totals m m' r r',
      Kernel.setUpMemory smallMap 0x200000000000 (smallMachine selfAndBitmapLinked) =
        .ok (.ok totals) m ∧ m.mapper = some ⟨0x200000000000⟩ ∧
      m.ram = ⟨0x200000000000, 0x400000⟩ ∧ m.frames = some r ∧
      (r.load m.memory).isTaken 0 = false ∧ m.topTable = ⟨1, by decide⟩ ∧
      m.readEntry ⟨1, by decide⟩ 1 = .ok (some (.link ⟨1, by decide⟩)) ∧
      m.readEntry ⟨1, by decide⟩ 2 = .ok (some (.link ⟨14, by decide⟩)) ∧
      m.readEntry ⟨14, by decide⟩ 0 = .ok (some .absent) ∧
      staysWithin (fun f => decide (f.number < 16)) [call] m = true ∧
      call.onKernel m = .ok (.changed (.ok ())) m' ∧ m'.frames = some r' ∧
      (r'.load m'.memory).isTaken 0 = true := by
    refine ⟨_, _, _, _, _, rfl, rfl, rfl, rfl, rfl, rfl, ?_, ?_, ?_, rfl, rfl, rfl, rfl⟩
    all_goals decide +kernel
  have hmaps := maps_small hmapper hram
  have hinRam : ∀ f : Frame, decide (f.number < 16) = true → f.bytes ⊆ Set.Ico 0 0x400000 := by
    intro f hf
    have hnumber : f.number < 16 := of_decide_eq_true hf
    simp only [Frame.bytes, Frame.base]
    exact Set.Ico_subset_Ico (by omega) (by omega)
  have hmirror := hmaps.mirrors (n := 16) hframes hinRam fun f hf => of_decide_eq_true hf
  generalize ha : m.mirror 16 (r.load m.memory) = a at hmirror
  have haframes : a.frames = r.load m.memory := by rw [← ha]; rfl
  have htop := hmirror.reached ⟨1, by decide⟩ (by decide)
  -- twice around the link of the top table to itself, and then to the frame of the bitmap
  have hrootTable : look rootTable a = .ok (.ok ⟨1, by decide⟩) a := by
    simp only [look, rootTable_eq_ok (hmirror.root.trans (congrArg some hroot)) htop]
  have hself : a.cell ⟨1, by decide⟩ 1 = .link ⟨1, by decide⟩ := hmirror.cell_eq (by decide) hlink
  have hpdpt : followOrMake bitmapPage ⟨1, by decide⟩ .pml4 a = .ok (.ok ⟨1, by decide⟩) a :=
    followOrMake_of_link htop hself
  have hpd : followOrMake bitmapPage ⟨1, by decide⟩ .pdpt a = .ok (.ok ⟨1, by decide⟩) a :=
    followOrMake_of_link htop hself
  have hpt : followOrMake bitmapPage ⟨1, by decide⟩ .pd a = .ok (.ok ⟨14, by decide⟩) a :=
    followOrMake_of_link htop (hmirror.cell_eq (by decide) hlast)
  have hbitmap := hmirror.reached ⟨14, by decide⟩ (by decide)
  have hvacant : a.cell ⟨14, by decide⟩ bitmapPage.leafIndex = .absent :=
    hmirror.cell_eq (by decide) hleaf
  obtain ⟨a', hwrite, hwrote, -⟩ := change_leaf (v := bitmapPage) hbitmap bitmapPage.leafIndex
    (.leaf ⟨0x9000, by decide⟩ 0xfff)
  have hmap : map bitmapPage ⟨0x9000, by decide⟩ 0xfff a = .ok (.ok ()) a' := by
    rw [map, if_neg (by decide), bind_ok hrootTable, bind_ok hpdpt, bind_ok hpd, bind_ok hpt,
      bind_ok (look_entry hbitmap), hvacant, if_neg (by decide)]
    exact hwrite
  refine ⟨totals, m, m', a, a', r, r', hinit, hmaps, hframes, hinRam, hmirror, hstay, hcall,
    hframes', ?_, htaken, ?_⟩
  · simp only [call, Call.onTables, Functor.map, EStateM.map, ExceptT.run, hmap]
  · rw [hwrote.frames, haframes, hfree]

end Paging

end KernelCore
