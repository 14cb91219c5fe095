import KernelCore.Proofs.Memory.Setup
import KernelCore.Proofs.Memory.Walks

/-!
# Tables, bitmap and clients stay apart

Once memory is set up over tables that lie outside the pool and the bitmap, no order of requests
brings page tables, the bitmap and the frames of clients into each other's way, as long as clients
give back and write only what they hold. Each operation takes a `Holding` to a `Holding`, so a run
of them does.
-/

namespace KernelCore

open FrameAllocator Machine Holding Paging

namespace Machine

/-- The bitmap of the machine says that a frame is out. -/
def Uses (m : Machine) (f : Frame) : Prop :=
  ∃ r, m.frames = some r ∧ (r.load m.memory).isUsed f = true

/-- Between two machines the allocator handed out the frames `fs`, and did nothing else. -/
def Grants (m : Machine) (fs : List Frame) (m' : Machine) : Prop :=
  ∃ r r', m.frames = some r ∧ m'.frames = some r' ∧
    HandsOut (r.load m.memory) fs (r'.load m'.memory)

/-- The machine after a byte of physical memory is written through the direct map. -/
def poke (m : Machine) (map : DirectMap) (x : ℕ) (b : UInt8) : Machine :=
  { m with memory := m.memory.setByte (map.place x) b }

end Machine

/-! ## Operations of the kernel -/

namespace Holding

variable {L : Layout} {s s' : Holding L} {fs : List Frame}

theorem Kept.grants (h : Kept s fs s') : s.machine.Grants fs s'.machine :=
  ⟨s.resident, s'.resident, s.lends.frames, s'.lends.frames, h.handsOut⟩

theorem uses_iff (s : Holding L) (f : Frame) :
    s.machine.Uses f ↔ f.base.val ∈ s.held ∨ f.base.val ∈ s.made := by
  rw [← Set.mem_union, ← s.ledger, ← isUsed_iff s.lends.sound]
  constructor
  · rintro ⟨r, hr, hused⟩
    obtain rfl := Option.some.inj (s.lends.frames.symm.trans hr)
    exact hused
  · intro hused
    exact ⟨s.resident, s.lends.frames, hused⟩

theorem bytes_allocator (s : Holding L) : s.allocator.bitmap.bytes =
    (s.machine.memory.bytes (L.map.place L.bitmap.base.val) L.bitmap.length.toNat).toArray := by
  rw [← s.storage, ← s.size]
  rfl

/-- The bitmap is as it was if nothing was handed out. -/
theorem Kept.bitmap (h : Kept s [] s') {x : ℕ} (hx : x ∈ L.bitmapBytes) :
    s'.machine.physical L.map x = s.machine.physical L.map x := by
  have hsame : s'.allocator = s.allocator := h.handsOut.eq_of_nil
  have hbytes := congrArg (fun a => a.bitmap.bytes.toList) hsame
  simp only [bytes_allocator] at hbytes
  obtain ⟨k, rfl⟩ : ∃ k, x = L.bitmap.base.val + k := ⟨x - L.bitmap.base.val, by
    have := hx.1
    omega⟩
  have hk : k < L.bitmap.length.toNat := by
    have := hx.2
    omega
  have hbyte := congrArg (·[k]?) hbytes
  simp [Memory.bytes, hk] at hbyte
  rw [Machine.physical, Machine.physical, s.sees.reaches.place_add L.bitmapInRam hk]
  exact hbyte

theorem exists_walk {α : Type} {n : ℕ} {w : Walk Machine α} {post : α → Holding L → Prop}
    (h : Keeps n s w post) :
    ∃ r s' fs, Kernel.walk w s.machine = .ok r s'.machine ∧ Kept s fs s' ∧ fs.length ≤ n := by
  obtain ⟨r, s', fs, hrun, hkept, hlength, -⟩ := h
  have hlift : (w.run : Kernel (Except PagingError α)) s.machine = .ok r s'.machine := hrun
  rw [Kernel.walk, Kernel.lift_bind_ok hlift]
  cases r with
  | ok y => exact ⟨.ok y, s', fs, rfl, hkept, hlength⟩
  | error e =>
    cases hrecord : e.record? with
    | none => exact ⟨.error (.paging e), s', fs, by simp only [hrecord]; rfl, hkept, hlength⟩
    | some record =>
      obtain ⟨u, hu, hquiet⟩ := exists_kept_quiet s'
        (s'.machine.console.log ⟨record.level, record.text⟩) s'.machine.events
      have hall := hkept.trans hquiet
      rw [List.append_nil] at hall
      refine ⟨.error (.paging e), u, fs, ?_, hall, hlength⟩
      rw [hu]
      simp only [hrecord]
      rfl

theorem exists_mapPage (s : Holding L) (v : VirtAddr) (p : PhysAddr) (attributes : UInt64) :
    ∃ r s' fs, Kernel.mapPage v p attributes s.machine = .ok r s'.machine ∧ Kept s fs s' ∧
      fs.length ≤ 3 := by
  obtain ⟨r, s', fs, hrun, hkept, hlength⟩ := exists_walk (keeps_map s v p attributes)
  refine ⟨r, s', fs, ?_, hkept, hlength⟩
  have hready : (s.machine.mapper.isSome && s.machine.frames.isSome) = true := by
    simp [s.sees.mapper, s.lends.frames]
  apply (Kernel.lift_bind_ok (x := (get : Kernel Machine)) rfl).trans
  rw [if_pos hready]
  exact hrun

theorem exists_unmapPage (s : Holding L) (v : VirtAddr) :
    ∃ r s', Kernel.unmapPage v s.machine = .ok r s'.machine ∧ Kept s [] s' := by
  obtain ⟨r, s', fs, hrun, hkept, hlength⟩ := exists_walk (keeps_unmap s v)
  obtain rfl : fs = [] := List.eq_nil_of_length_eq_zero (by omega)
  refine ⟨r, s', ?_, hkept⟩
  have hready : s.machine.mapper.isSome = true := by simp [s.sees.mapper]
  apply (Kernel.lift_bind_ok (x := (get : Kernel Machine)) rfl).trans
  rw [if_pos hready]
  exact hrun

theorem translate_eq_ok (s : Holding L) (v : VirtAddr) :
    ∃ r, Kernel.translate v s.machine = .ok r s.machine := by
  obtain ⟨r, hr⟩ := exists_translate s v
  refine ⟨r, ?_⟩
  simp only [Kernel.translate, bind, EStateM.bind, get, getThe, MonadStateOf.get, EStateM.get,
    s.sees.mapper, Option.isSome_some, if_true, hr]
  rfl

/-- A request by which clients give back nothing but what they hold changes what they hold as the
ledger says. -/
theorem exists_serve (s : Holding L) (q : Request) (howned : q.returned ⊆ s.held) :
    ∃ granted, ∃ s' : Holding L, Kernel.serve q s.machine = .ok granted s'.machine ∧
      s'.held = settle s.held q granted ∧ s'.made = s.made ∧
      (∀ x ∈ granted, x ∉ s.held ∧ x ∉ s.made) ∧
      ∀ x ∈ bytesOf s.held, s'.machine.physical L.map x = s.machine.physical L.map x := by
  obtain ⟨granted, b, hserve, hlends, hplace, hgranted, hlent⟩ := Kernel.serve_eq_ok s.lends q
  have hunion : s.allocator.lent = s.held ∪ s.made := s.ledger
  have hfresh : ∀ x ∈ granted, x ∉ s.held ∧ x ∉ s.made := by
    intro x hx
    have hnew := hgranted.fresh x hx
    rw [s.ledger] at hnew
    exact ⟨fun h => hnew (.inl h), fun h => hnew (.inr h)⟩
  have hkept : s.made \ q.returned = s.made := by
    rw [sdiff_eq_left]
    exact (s.apart.mono_left howned).symm
  have hledger : b.lent = settle s.held q granted ∪ s.made := by
    rw [hlent, s.ledger, settle, settle, Set.union_sdiff_distrib, hkept, Set.union_right_comm]
  have hdisjoint : Disjoint (settle s.held q granted) s.made := by
    rw [settle, Set.disjoint_union_left]
    exact ⟨s.apart.mono_left Set.sdiff_subset, Set.disjoint_left.mpr fun x hx => (hfresh x hx).2⟩
  refine ⟨granted, s.storing hplace hlends.sound _ _ hledger hdisjoint subset_rfl, hserve, rfl, rfl,
    hfresh, fun x hx => ?_⟩
  exact s.physical_storing hplace (s.heldBytes_subset hx) (s.held_disjoint_bitmap hx)

theorem exists_frame (s : Holding L) {y : ℕ} (h : L.IsFrame y) : ∃ f : Frame, f.base.val = y := by
  obtain ⟨i, hi, rfl⟩ := h
  have hregion : s.allocator.region = L.pool := s.region
  have haligned := s.sound.aligned
  have hmemory := s.sound.inMemory
  rw [total, hregion] at hmemory
  rw [hregion] at haligned
  refine ⟨⟨(L.pool.base.val + i * 4096) / 4096, by omega⟩, ?_⟩
  simp only [Frame.base]
  omega

/-- Clients may write to what they hold. -/
theorem exists_poke (s : Holding L) {x : ℕ} (hx : x ∈ bytesOf s.held) (b : UInt8) :
    ∃ s' : Holding L, s'.machine = s.machine.poke L.map x b ∧ s'.held = s.held ∧
      s'.made = s.made ∧ (∀ d f, s'.machine.TableAt d f ↔ s.machine.TableAt d f) ∧
      ∀ y ∈ L.bitmapBytes, s'.machine.physical L.map y = s.machine.physical L.map y := by
  obtain ⟨y, hy, hxy⟩ := hx
  have hpool := s.isFrame_of_held hy
  obtain ⟨f, rfl⟩ := s.exists_frame hpool
  have htouches : Touches L.map f s.machine (s.machine.poke L.map x b) := by
    obtain ⟨k, rfl⟩ : ∃ k, x = f.base.val + k := ⟨x - f.base.val, by have := hxy.1; omega⟩
    have hk : k < 4096 := by have := hxy.2; omega
    apply touches_of_outside
    intro c hc
    rw [Memory.byte_setByte, s.sees.reaches.place_add hpool.bytes_subset hk, if_neg (by omega)]
  have hunlinked : ∀ d, ¬ s.machine.TableAt d f := fun d hd => s.notMem_held hd hy
  have hsame : ∀ d g, (s.machine.poke L.map x b).TableAt d g ↔ s.machine.TableAt d g :=
    fun _ _ => s.tableAt_touches htouches hpool.bytes_subset hunlinked
  refine ⟨s.touching htouches hpool.bytes_subset hpool.disjoint
    (fun d g hg => s.tables d g ((hsame d g).mp hg))
    (fun d e g hd he => s.graded d e g ((hsame d g).mp hd) ((hsame e g).mp he)), rfl, rfl, rfl,
    hsame, fun z hz => ?_⟩
  exact s.sees.physical_eq hpool.bytes_subset htouches.outside (L.bitmapInRam hz)
    (Set.disjoint_right.mp hpool.disjoint hz)

end Holding

/-! ## Runs -/

/-- The machines that come from `m₀` by requests to the allocator and the mapper and by writes of
clients, with the frames that clients hold and those that the mapper was handed. Clients give back
and write only what they hold. -/
inductive Run (map : DirectMap) (m₀ : Machine) : Machine → Set ℕ → Set ℕ → Prop
  | start : Run map m₀ m₀ ∅ ∅
  | request {m m' : Machine} {held made : Set ℕ} {q : Request} {granted : List ℕ}
      (run : Run map m₀ m held made) (owned : q.returned ⊆ held)
      (served : Kernel.serve q m = .ok granted m') : Run map m₀ m' (settle held q granted) made
  | map {m m' : Machine} {held made : Set ℕ} {v : VirtAddr} {p : PhysAddr} {attributes : UInt64}
      {r : Except MemoryError Unit} {fs : List Frame} (run : Run map m₀ m held made)
      (mapped : Kernel.mapPage v p attributes m = .ok r m') (granted : m.Grants fs m') :
      Run map m₀ m' held (made ∪ addresses fs)
  | unmap {m m' : Machine} {held made : Set ℕ} {v : VirtAddr} {r : Except MemoryError Unit}
      (run : Run map m₀ m held made) (unmapped : Kernel.unmapPage v m = .ok r m') :
      Run map m₀ m' held made
  | translate {m m' : Machine} {held made : Set ℕ} {v : VirtAddr} {r : Option PhysAddr}
      (run : Run map m₀ m held made) (translated : Kernel.translate v m = .ok r m') :
      Run map m₀ m' held made
  | write {m : Machine} {held made : Set ℕ} {x : ℕ} {b : UInt8} (run : Run map m₀ m held made)
      (owned : x ∈ bytesOf held) : Run map m₀ (m.poke map x b) held made

theorem Machine.Grants.addresses_eq {m m' : Machine} {fs gs : List Frame} {r : ResidentAllocator}
    {a : FrameAllocator} (hm : m.Lends r a) (h : m.Grants fs m') (h' : m.Grants gs m') :
    addresses fs = addresses gs := by
  obtain ⟨r₁, r₁', hr₁, hr₁', hout⟩ := h
  obtain ⟨r₂, r₂', hr₂, hr₂', hout'⟩ := h'
  obtain rfl := Option.some.inj (hr₁.symm.trans hr₂)
  obtain rfl := Option.some.inj (hr₁'.symm.trans hr₂')
  obtain rfl := Option.some.inj (hm.frames.symm.trans hr₁)
  have hsound : Sound (r.load m.memory) := hm.load ▸ hm.sound
  obtain ⟨-, -, hlent, hapart⟩ := hout.lent hsound
  obtain ⟨-, -, hlent', hapart'⟩ := hout'.lent hsound
  rw [← hapart.sdiff_eq_right, ← hapart'.sdiff_eq_right, ← Set.union_sdiff_left, ← hlent, hlent',
    Set.union_sdiff_left]

theorem Run.exists_holding {L : Layout} {s₀ : Holding L} (hheld : s₀.held = ∅) (hmade : s₀.made = ∅)
    {m : Machine} {held made : Set ℕ} (h : Run L.map s₀.machine m held made) :
    ∃ s : Holding L, s.machine = m ∧ s.held = held ∧ s.made = made := by
  induction h with
  | start => exact ⟨s₀, rfl, hheld, hmade⟩
  | request run owned served ih =>
    obtain ⟨s, rfl, rfl, rfl⟩ := ih
    obtain ⟨granted, s', hserve, hheld', hmade', -⟩ := exists_serve s _ owned
    obtain ⟨rfl, rfl⟩ := EStateM.Result.ok.inj (hserve.symm.trans served)
    exact ⟨s', rfl, hheld', hmade'⟩
  | map run mapped granted ih =>
    obtain ⟨s, rfl, rfl, rfl⟩ := ih
    obtain ⟨r, s', fs, hmap, hkept, -⟩ := exists_mapPage s _ _ _
    obtain ⟨-, rfl⟩ := EStateM.Result.ok.inj (hmap.symm.trans mapped)
    refine ⟨s', rfl, hkept.held, ?_⟩
    rw [hkept.made, hkept.grants.addresses_eq s.lends granted]
  | unmap run unmapped ih =>
    obtain ⟨s, rfl, rfl, rfl⟩ := ih
    obtain ⟨r, s', hunmap, hkept⟩ := exists_unmapPage s _
    obtain ⟨-, rfl⟩ := EStateM.Result.ok.inj (hunmap.symm.trans unmapped)
    refine ⟨s', rfl, hkept.held, ?_⟩
    rw [hkept.made]
    simp [addresses]
  | translate run translated ih =>
    obtain ⟨s, rfl, rfl, rfl⟩ := ih
    obtain ⟨r, htranslate⟩ := translate_eq_ok s _
    obtain ⟨-, rfl⟩ := EStateM.Result.ok.inj (htranslate.symm.trans translated)
    exact ⟨s, rfl, rfl, rfl⟩
  | write run owned ih =>
    obtain ⟨s, rfl, rfl, rfl⟩ := ih
    obtain ⟨s', hs', hheld', hmade', -⟩ := exists_poke s owned _
    exact ⟨s', hs', hheld', hmade'⟩

/-- Page tables, the bitmap and the frames of clients are apart, and no request that is permitted
changes that. `held` are the frames that clients hold, `made` those that the mapper was handed. -/
structure Separated (map : DirectMap) (bitmap : Set ℕ) (m : Machine) (held made : Set ℕ) : Prop where
  /-- The bitmap describes the frames that are out, each of which is in one hand. -/
  described : ∀ f, m.Uses f ↔ f.base.val ∈ held ∨ f.base.val ∈ made
  disjoint : Disjoint held made
  /-- No client holds a page table. -/
  tables : ∀ d f, m.TableAt d f → f.base.val ∉ held
  /-- No page table is handed to a client, and what clients wrote stays. -/
  serves : ∀ q : Request, q.returned ⊆ held → ∃ granted m', Kernel.serve q m = .ok granted m' ∧
    (∀ x ∈ granted, x ∉ held ∧ x ∉ made ∧ ∀ d f, m'.TableAt d f → f.base.val ≠ x) ∧
    ∀ x ∈ bytesOf held, m'.physical map x = m.physical map x
  /-- Mapping changes the bitmap only by asking the allocator for frames. -/
  maps : ∀ v p attributes, ∃ r m' fs, Kernel.mapPage v p attributes m = .ok r m' ∧
    m.Grants fs m' ∧ fs.length ≤ 3 ∧ ∀ x ∈ bytesOf held, m'.physical map x = m.physical map x
  unmaps : ∀ v, ∃ r m', Kernel.unmapPage v m = .ok r m' ∧
    (∀ x ∈ bitmap, m'.physical map x = m.physical map x) ∧
    ∀ x ∈ bytesOf held, m'.physical map x = m.physical map x
  translates : ∀ v, ∃ r, Kernel.translate v m = .ok r m
  /-- A client that writes to its frames changes neither the bitmap nor a table. -/
  writes : ∀ x ∈ bytesOf held, ∀ b,
    (∀ y ∈ bitmap, (m.poke map x b).physical map y = m.physical map y) ∧
    ∀ d f, (m.poke map x b).TableAt d f ↔ m.TableAt d f

theorem Holding.separated {L : Layout} (s : Holding L) :
    Separated L.map L.bitmapBytes s.machine s.held s.made where
  described := s.uses_iff
  disjoint := s.apart
  tables := fun _ _ => s.notMem_held
  serves := by
    intro q howned
    obtain ⟨granted, s', hserve, hheld, hmade, hfresh, hcontents⟩ := exists_serve s q howned
    refine ⟨granted, s'.machine, hserve, fun x hx => ?_, hcontents⟩
    obtain ⟨hnotHeld, hnotMade⟩ := hfresh x hx
    refine ⟨hnotHeld, hnotMade, ?_⟩
    rintro d f hf rfl
    apply s'.notMem_held hf
    rw [hheld]
    exact .inr hx
  maps := by
    intro v p attributes
    obtain ⟨r, s', fs, hmap, hkept, hlength⟩ := exists_mapPage s v p attributes
    exact ⟨r, s'.machine, fs, hmap, hkept.grants, hlength, hkept.contents⟩
  unmaps := by
    intro v
    obtain ⟨r, s', hunmap, hkept⟩ := exists_unmapPage s v
    exact ⟨r, s'.machine, hunmap, fun _ => hkept.bitmap, hkept.contents⟩
  translates := translate_eq_ok s
  writes := by
    intro x hx b
    obtain ⟨s', hs', -, -, htables, hbitmap⟩ := exists_poke s hx b
    rw [hs'] at htables hbitmap
    exact ⟨hbitmap, htables⟩

section SetUp

variable {entries : List MapEntry} {offset : UInt64} {m m₀ : Machine} {totals : MemoryTotals}
  {pool : FramePool} {map : DirectMap} {ram : Set ℕ}

/-- The places of a pool and its bitmap in RAM, once an allocator was made over them. -/
theorem exists_layout {buffer : Bitmap} {a : FrameAllocator} (map : DirectMap)
    (hnew : ofBuffer pool.frames pool.bitmap buffer = .ok a)
    (hend : pool.frames.base.val + pool.frames.length.toNat ≤ 0x10000000000000)
    (hpool : pool.frames.bytes ⊆ ram) (hbitmap : pool.bitmap.bytes ⊆ ram) :
    ∃ L : Layout, L.map = map ∧ L.ram = ram ∧ L.pool = pool.frames ∧
      L.bitmap = bitmapPart pool.frames pool.bitmap ∧
      L.bitmapBytes = Set.Ico pool.bitmap.base.val
        (pool.bitmap.base.val + bitmapSize pool.frames.frameCount) ∧
      L.bitmapBytes ⊆ pool.bitmap.bytes := by
  obtain ⟨hflaw, hregion, hpart, -⟩ := ofBuffer_eq_ok hnew
  obtain ⟨-, -, -, hlength, -⟩ := flaw?_eq_none_iff.mp hflaw
  have hsize := length_bitmapPart hflaw
  have hbytes : Set.Ico pool.bitmap.base.val
      (pool.bitmap.base.val + bitmapSize pool.frames.frameCount) ⊆ pool.bitmap.bytes :=
    Set.Ico_subset_Ico le_rfl (by omega)
  let L : Layout :=
    { map := map
      ram := ram
      pool := pool.frames
      bitmap := bitmapPart pool.frames pool.bitmap
      poolInRam := fun i hi => (pool.frames.frame_subset_bytes hi).trans hpool
      bitmapInRam := by
        rw [hsize]
        exact hbytes.trans hbitmap
      apart := by
        intro i hi
        have hapart := startOf_disjoint_bitmap hnew hend (i := i) (by rwa [total, hregion])
        rw [startOf, hregion, hpart] at hapart
        rw [Set.Ico_disjoint_Ico]
        omega }
  have hbitmapBytes : L.bitmapBytes = Set.Ico pool.bitmap.base.val
      (pool.bitmap.base.val + bitmapSize pool.frames.frameCount) :=
    congrArg (fun n => Set.Ico pool.bitmap.base.val (pool.bitmap.base.val + n)) hsize
  exact ⟨L, rfl, rfl, rfl, rfl, hbitmapBytes, hbitmapBytes ▸ hbytes⟩

/-- Setting up memory leaves a ledger on which no frame is out, if the tables that the bootloader
made are apart from the pool and from the bitmap. -/
theorem exists_holding_of_setUp
    (hinit : Kernel.setUpMemory entries offset m = .ok (.ok totals) m₀)
    (hpool : FramePool.ofEntries entries = .ok (.ok pool))
    (hmap : m₀.mapper = some map) (hreaches : map.Reaches m₀.ram ram)
    (husable : ∀ e ∈ entries, e.isUsable = true → e.bytes ⊆ ram)
    (htables : ∀ d f, m₀.TableAt d f → f.bytes ⊆ ram ∧ Disjoint f.bytes pool.frames.bytes ∧
      Disjoint f.bytes pool.bitmap.bytes)
    (hgraded : ∀ d e f, m₀.TableAt d f → m₀.TableAt e f → d = e) :
    ∃ (L : Layout) (s : Holding L), L.map = map ∧
      L.bitmapBytes = Set.Ico pool.bitmap.base.val
        (pool.bitmap.base.val + bitmapSize pool.frames.frameCount) ∧
      s.machine = m₀ ∧ s.held = ∅ ∧ s.made = ∅ := by
  have hcases := Kernel.setUpMemory_cases entries offset m
  rw [hinit] at hcases
  cases hcases with
  | done chosen directMap mapper placed frames ramSame processor =>
    rename_i pool' map' r
    obtain rfl := Except.ok.inj (Except.ok.inj (chosen.symm.trans hpool))
    obtain rfl := Option.some.inj (mapper.symm.trans hmap)
    have hmemory : ∀ x ∈ ram, x < 0x10000000000000 := by
      intro x hx
      obtain ⟨p, v, rfl, -⟩ := hreaches.visible x hx
      exact p.lt
    obtain ⟨⟨e, he, heUsable, hframes⟩, e', he', heUsable', hbitmap⟩ := FramePool.ofEntries_eq_ok
      (fun e he hu x hx => hmemory x (husable e he hu hx)) chosen
    have hpoolRam : pool'.frames.bytes ⊆ ram := hframes.bytes_subset.trans (husable e he heUsable)
    have hbitmapRam : pool'.bitmap.bytes ⊆ ram :=
      hbitmap.bytes_subset.trans (husable e' he' heUsable')
    obtain ⟨hstorage, hregion, -, -, buffer, hnew⟩ := ResidentAllocator.placed_eq_ok placed
    obtain ⟨hflaw, hsame, hpart, -⟩ := ofBuffer_eq_ok hnew
    obtain ⟨-, hcount, -⟩ := flaw?_eq_none_iff.mp hflaw
    have hpositive : 4096 ≤ pool'.frames.length.toNat := by
      rw [Extent.frameCount] at hcount
      omega
    have hend : pool'.frames.base.val + pool'.frames.length.toNat ≤ 0x10000000000000 := by
      have hlast := hmemory (pool'.frames.base.val + (pool'.frames.length.toNat - 1))
        (hpoolRam ⟨by omega, by omega⟩)
      omega
    obtain ⟨hlends, -⟩ := Kernel.lends_of_placed hend placed frames
    obtain ⟨L, rfl, rfl, hLpool, hLbitmap, hbytes, hinside⟩ :=
      exists_layout map' hnew hend hpoolRam hbitmapRam
    refine ⟨L, ⟨m₀, r, ∅, ∅, hlends, ?_, ?_, ?_, ⟨mapper, hreaches⟩, ?_, by simp, ?_, hgraded⟩,
      rfl, hbytes, rfl, rfl, rfl⟩
    · rw [hLpool]
      exact hregion
    · rw [hLbitmap]
      exact (DirectMap.place_eq hstorage).symm
    · rw [ResidentAllocator.size, hregion, hLbitmap]
      exact (length_bitmapPart hflaw).symm
    · rw [lent_ofBuffer hnew, Set.union_empty]
    · intro d f hf
      obtain ⟨hram, hapart, hbitmapApart⟩ := htables d f hf
      refine ⟨hram, hbitmapApart.mono_right hinside, ?_⟩
      rintro ⟨i, hi, hx⟩
      rw [hLpool] at hi hx
      have hmem : f.base.val ∈ pool'.frames.bytes := by
        rw [hx]
        exact pool'.frames.frame_subset_bytes hi
          (Set.left_mem_Ico.mpr (Nat.lt_add_of_pos_right (by decide)))
      exact absurd hmem (Set.disjoint_left.mp hapart f.base_mem_bytes)

/-- Page tables, the bitmap and the frames of clients stay apart. Let memory be set up over RAM that
is reached through the direct map, with the tables that are loaded in RAM, outside the pool and the
bitmap, and none of them at two depths. Then after every run of requests to the allocator and to the
mapper, in which clients give back and write only what they hold, the three are apart as `Separated`
says. -/
theorem tables_and_clients_stay_apart
    (hinit : Kernel.setUpMemory entries offset m = .ok (.ok totals) m₀)
    (hpool : FramePool.ofEntries entries = .ok (.ok pool))
    (hmap : m₀.mapper = some map) (hreaches : map.Reaches m₀.ram ram)
    (husable : ∀ e ∈ entries, e.isUsable = true → e.bytes ⊆ ram)
    (htables : ∀ d f, m₀.TableAt d f → f.bytes ⊆ ram ∧ Disjoint f.bytes pool.frames.bytes ∧
      Disjoint f.bytes pool.bitmap.bytes)
    (hgraded : ∀ d e f, m₀.TableAt d f → m₀.TableAt e f → d = e)
    {m' : Machine} {held made : Set ℕ} (hrun : Run map m₀ m' held made) :
    Separated map (Set.Ico pool.bitmap.base.val
      (pool.bitmap.base.val + bitmapSize pool.frames.frameCount)) m' held made := by
  obtain ⟨L, s₀, rfl, hbitmap, rfl, hheld, hmade⟩ :=
    exists_holding_of_setUp hinit hpool hmap hreaches husable htables hgraded
  obtain ⟨s, rfl, rfl, rfl⟩ := hrun.exists_holding hheld hmade
  rw [← hbitmap]
  exact s.separated

end SetUp

/-! ## A small machine -/

theorem DirectMap.toVirt_lowerHalf (p : PhysAddr) (h : p.val < 0x200000000000) :
    (⟨0x200000000000⟩ : DirectMap).toVirt p = .ok ⟨0x200000000000 + p.val, .inl (by omega)⟩ := by
  have hoffset : (0x200000000000 : UInt64).toNat = 0x200000000000 := rfl
  exact toVirt_of_below (by rw [hoffset]; omega) rfl

theorem DirectMap.place_lowerHalf {x : ℕ} (hx : x < 0x200000000000) :
    (⟨0x200000000000⟩ : DirectMap).place x = 0x200000000000 + x :=
  place_eq (toVirt_lowerHalf ⟨x, by omega⟩ hx)

theorem DirectMap.place_lowerHalf_ne_zero {x : ℕ} (hx : x < 0x200000000000) :
    (⟨0x200000000000⟩ : DirectMap).place x ≠ 0 := by
  rw [place_lowerHalf hx]
  omega

/-- A direct map in the lower half makes memory below its offset visible. -/
theorem DirectMap.reaches_lowerHalf {span : Span} {n : ℕ} (hspan : span = ⟨0x200000000000, n⟩)
    (hn : n ≤ 0x200000000000) : (⟨0x200000000000⟩ : DirectMap).Reaches span (Set.Ico 0 n) := by
  subst hspan
  constructor
  · intro x hx
    have hlt := hx.2
    refine ⟨⟨x, by omega⟩, _, rfl, toVirt_lowerHalf _ (by simp only; omega), ?_⟩
    rw [Span.covers_iff]
    simp only
    omega
  · intro x hx y hy hxy
    have hx' := hx.2
    have hy' := hy.2
    rw [place_lowerHalf (by omega), place_lowerHalf (by omega)] at hxy
    omega
  · intro x hx hx'
    have hlt := hx.2
    have hlt' := hx'.2
    rw [place_lowerHalf (by omega), place_lowerHalf (by omega)]
    omega

/-- Entries are read past the offset of the direct map. -/
theorem Machine.Sees.readEntry_lowerHalf {m : Machine} {n : ℕ}
    (h : m.Sees ⟨0x200000000000⟩ (Set.Ico 0 n)) (hn : n ≤ 0x200000000000) {f : Frame}
    (hf : f.bytes ⊆ Set.Ico 0 n) (i : TableIndex) : m.readEntry f i =
      .ok (some ⟨m.memory.word (0x200000000000 + f.base.val + 8 * i.val)⟩) := by
  have hbase := (hf f.base_mem_bytes).2
  rw [h.readEntry_eq hf, DirectMap.place_lowerHalf (by omega), if_neg (by omega)]

/-- Two usable entries, the longer of which becomes the pool. -/
def smallMap : List MapEntry :=
  [⟨0, 0x2000, .reserved⟩, ⟨0x2000, 0xc000, .usable⟩, ⟨0xe000, 0x2000, .usable⟩]

/-- A machine with the given memory behind the direct map and its top table at 0x1000. -/
def smallMachine (memory : Memory) : Machine :=
  .off none memory ⟨0x200000000000, 0x400000⟩ 0x1000

theorem readEntry_small {m : Machine} (h : m.Sees ⟨0x200000000000⟩ (Set.Ico 0 0x400000))
    {i : TableIndex} {e : Entry} (he : m.readEntry ⟨1, by decide⟩ i = .ok (some e)) :
    e.bits = m.memory.word (0x200000001000 + 8 * i.val) := by
  have hframe : Frame.bytes ⟨1, by decide⟩ ⊆ Set.Ico 0 0x400000 :=
    Set.Ico_subset_Ico (by decide) (by decide)
  rw [h.readEntry_lowerHalf (by decide) hframe] at he
  rw [← Option.some.inj (Except.ok.inj he)]
  rfl

/-- The only table is the top one, in a frame below the pool, if it links to no other frame. -/
theorem tables_of_top {m : Machine} (hm : m.topTable = ⟨1, by decide⟩)
    (hread : ∀ i e, m.readEntry ⟨1, by decide⟩ i = .ok (some e) → e.isPresent = true →
      e.address.val = 0x1000) {d : ℕ} {f : Frame} (h : m.TableAt d f) : f = ⟨1, by decide⟩ := by
  induction h with
  | top => exact hm
  | link above upper read present small ih =>
    subst ih
    have haddress := hread _ _ read present
    ext1
    simp only [Frame.containing, haddress]

theorem disjoint_small : Disjoint (Frame.bytes ⟨1, by decide⟩)
      (Extent.bytes ⟨⟨0x2000, by decide⟩, 0xc000⟩) ∧
    Disjoint (Frame.bytes ⟨1, by decide⟩) (Extent.bytes ⟨⟨0xe000, by decide⟩, 0x2000⟩) := by
  simp [Frame.bytes, Frame.base, Extent.bytes, Set.Ico_disjoint_Ico]

theorem usable_small : ∀ e ∈ smallMap, e.isUsable = true → e.bytes ⊆ Set.Ico 0 0x400000 := by
  intro e he _
  simp only [smallMap, List.mem_cons, List.not_mem_nil, or_false] at he
  rcases he with rfl | rfl | rfl <;> exact Set.Ico_subset_Ico (by decide) (by decide)

/-- Memory in which the last entry of the top table links to the top table. -/
def selfLinked : Memory :=
  .filled fun a => if a = 0x200000001ff8 then 0x03 else if a = 0x200000001ff9 then 0x10 else 0

/-- A top table that links to itself is a table at every depth. Mapping a page through that link
writes an entry of the top table, so the frame of the page, which a client holds, becomes a table. -/
theorem client_frame_becomes_table :
    ∃ totals m₀ m' held made,
      Kernel.setUpMemory smallMap 0x200000000000 (smallMachine selfLinked) =
        .ok (.ok totals) m₀ ∧
      FramePool.ofEntries smallMap =
        .ok (.ok ⟨⟨⟨0x2000, by decide⟩, 0xc000⟩, ⟨⟨0xe000, by decide⟩, 0x2000⟩⟩) ∧
      m₀.mapper = some ⟨0x200000000000⟩ ∧
      DirectMap.Reaches ⟨0x200000000000⟩ m₀.ram (Set.Ico 0 0x400000) ∧
      (∀ e ∈ smallMap, e.isUsable = true → e.bytes ⊆ Set.Ico 0 0x400000) ∧
      (∀ d f, m₀.TableAt d f → f.bytes ⊆ Set.Ico 0 0x400000 ∧
        Disjoint f.bytes (Extent.bytes ⟨⟨0x2000, by decide⟩, 0xc000⟩) ∧
        Disjoint f.bytes (Extent.bytes ⟨⟨0xe000, by decide⟩, 0x2000⟩)) ∧
      Run ⟨0x200000000000⟩ m₀ m' held made ∧
      ∃ f, m'.TableAt 1 f ∧ f.base.val ∈ held := by
  obtain ⟨totals, m₀, m₁, m₂, hinit, hmapper, hram, hmemory, htop, hserve, hmap, hgrants, hread⟩ :
      ∃ totals m₀ m₁ m₂,
        Kernel.setUpMemory smallMap 0x200000000000 (smallMachine selfLinked) =
          .ok (.ok totals) m₀ ∧
        m₀.mapper = some ⟨0x200000000000⟩ ∧ m₀.ram = ⟨0x200000000000, 0x400000⟩ ∧
        m₀.memory = selfLinked ∧ m₀.topTable = ⟨1, by decide⟩ ∧
        Kernel.serve .frame m₀ = .ok [0x2000] m₁ ∧
        Kernel.mapPage ⟨0xffffffffffe05000, by decide⟩ ⟨0x2000, by decide⟩ 2 m₁ =
          .ok (.ok ()) m₂ ∧
        m₁.Grants [] m₂ ∧ m₂.readEntry m₂.topTable 5 = .ok (some ⟨0x2003⟩) := by
    refine ⟨_, _, _, _, rfl, rfl, rfl, rfl, rfl, rfl, rfl, ?_, ?_⟩
    · exact ⟨_, _, rfl, rfl, .nil _⟩
    · decide +kernel
  have hreaches : DirectMap.Reaches ⟨0x200000000000⟩ m₀.ram (Set.Ico 0 0x400000) :=
    DirectMap.reaches_lowerHalf hram (by decide)
  have hlast : ∀ i e, m₀.readEntry ⟨1, by decide⟩ i = .ok (some e) → e.isPresent = true →
      e.address.val = 0x1000 := by
    intro i e he hpresent
    have hbits := readEntry_small ⟨hmapper, hreaches⟩ he
    rw [hmemory] at hbits
    by_cases hi : i.val = 511
    · have hword : selfLinked.word 0x200000001ff8 = 0x1003 := by decide +kernel
      rw [hi, hword] at hbits
      simp [Entry.address, hbits]
    · have hword : selfLinked.word (0x200000001000 + 8 * i.val) = 0 := by
        apply Memory.word_eq_zero
        intro c h₁ h₂
        have hlt := i.isLt
        rw [selfLinked, Memory.byte_filled, if_neg (by omega), if_neg (by omega)]
      rw [hword] at hbits
      simp [Entry.isPresent, hbits] at hpresent
  refine ⟨totals, m₀, m₂, _, _, hinit, rfl, hmapper, hreaches, usable_small, ?_,
    .map (.request .start (Set.empty_subset _) hserve) hmap hgrants, ⟨2, by decide⟩, ?_, ?_⟩
  · intro d f hf
    rw [tables_of_top htop hlast hf]
    exact ⟨Set.Ico_subset_Ico (by decide) (by decide), disjoint_small⟩
  · exact .link .top (by decide) hread (by decide) (by decide)
  · exact .inr (by simp [Frame.base])

/-- On a machine whose top table is empty, a client takes a frame and a page is mapped. -/
theorem tables_and_clients_stay_apart_after_map :
    ∃ totals m₀ m' made,
      Kernel.setUpMemory smallMap 0x200000000000 (smallMachine .zeroed) =
        .ok (.ok totals) m₀ ∧
      Run ⟨0x200000000000⟩ m₀ m' (settle ∅ .frame [0x2000]) made ∧
      Separated ⟨0x200000000000⟩ (Set.Ico 0xe000 0xe002) m' (settle ∅ .frame [0x2000]) made := by
  obtain ⟨totals, m₀, m₁, hinit, hmapper, hram, hmemory, htop, hserve⟩ :
      ∃ totals m₀ m₁,
        Kernel.setUpMemory smallMap 0x200000000000 (smallMachine .zeroed) =
          .ok (.ok totals) m₀ ∧
        m₀.mapper = some ⟨0x200000000000⟩ ∧ m₀.ram = ⟨0x200000000000, 0x400000⟩ ∧
        m₀.memory = .zeroed ∧ m₀.topTable = ⟨1, by decide⟩ ∧
        Kernel.serve .frame m₀ = .ok [0x2000] m₁ :=
    ⟨_, _, _, rfl, rfl, rfl, rfl, rfl, rfl⟩
  have hreaches : DirectMap.Reaches ⟨0x200000000000⟩ m₀.ram (Set.Ico 0 0x400000) :=
    DirectMap.reaches_lowerHalf hram (by decide)
  have htables : ∀ d f, m₀.TableAt d f → d = 0 ∧ f = ⟨1, by decide⟩ := by
    intro d f hf
    induction hf with
    | top => exact ⟨rfl, htop⟩
    | @link d f i e above upper read present small ih =>
      obtain ⟨-, rfl⟩ := ih
      have hbits := readEntry_small ⟨hmapper, hreaches⟩ read
      have hword : Memory.zeroed.word (0x200000001000 + 8 * i.val) = 0 := by
        apply Memory.word_eq_zero
        intro c _ _
        rw [Memory.zeroed, Memory.byte_filled]
      rw [hmemory, hword] at hbits
      simp [Entry.isPresent, hbits] at present
  have hpool : FramePool.ofEntries smallMap = .ok (.ok ⟨⟨⟨0x2000, by decide⟩, 0xc000⟩,
      ⟨⟨0xe000, by decide⟩, 0x2000⟩⟩) := rfl
  have hapart : ∀ {m' held made}, Run ⟨0x200000000000⟩ m₀ m' held made →
      Separated ⟨0x200000000000⟩ (Set.Ico 0xe000 0xe002) m' held made := by
    intro m' held made hrun
    refine tables_and_clients_stay_apart hinit hpool hmapper hreaches usable_small ?_ ?_ hrun
    · intro d f hf
      obtain ⟨-, rfl⟩ := htables d f hf
      exact ⟨Set.Ico_subset_Ico (by decide) (by decide), disjoint_small⟩
    · intro d e f hd he
      rw [(htables d f hd).1, (htables e f he).1]
  have hrun : Run ⟨0x200000000000⟩ m₀ m₁ (settle ∅ .frame [0x2000]) ∅ :=
    .request .start (Set.empty_subset _) hserve
  obtain ⟨r, m₂, fs, hmap, hgrants, -⟩ := (hapart hrun).maps ⟨0x1000, by decide⟩
    ⟨0x2000, by decide⟩ 2
  have hrun' := hrun.map hmap hgrants
  exact ⟨totals, m₀, m₂, _, hinit, hrun', hapart hrun'⟩

end KernelCore
