import KernelCore.Proofs.Frames.Accounting

/-!
# Loans of frames

Clients ask for frames and give addresses back, in any order and with any arguments. The ledger of
such a run is the set of start addresses handed out and not given back since; the allocator's bitmap
is that ledger, so no frame is ever lent twice.
-/

namespace KernelCore

namespace FrameAllocator

inductive Request
  | frame
  | run (size : ℕ)
  | free (p : PhysAddr)
  | release (f : Frame)

namespace Request

/-- Carries a request out, and lists the start address of every frame that is handed out. -/
def serve : Request → EStateM Panic FrameAllocator (List ℕ)
  | .frame, a =>
    match allocateFrame a with
    | .ok f b => .ok (f.toList.map (·.base.val)) b
    | .error stop b => .error stop b
  | .run size, a =>
    match allocate size a with
    | .ok (.ok p) b => .ok ((List.range ((size + 4095) / 4096)).map fun i => p.val + i * 4096) b
    | .ok (.error _) b => .ok [] b
    | .error stop b => .error stop b
  | .free p, a => .ok [] (a.deallocate p)
  | .release f, a => .ok [] (a.deallocate f.base)

/-- The address that a request gives back. -/
def returned : Request → Set ℕ
  | .frame | .run _ => ∅
  | .free p => {p.val}
  | .release f => {f.base.val}

end Request

/-- The ledger after a request that was answered with the frames `granted`. -/
def settle (out : Set ℕ) (r : Request) (granted : List ℕ) : Set ℕ :=
  (out \ r.returned) ∪ {x | x ∈ granted}

/-- Serves requests one after the other, with the ledger beside the allocator. -/
def serveAll : List Request → FrameAllocator → Set ℕ → Except Panic (FrameAllocator × Set ℕ)
  | [], a, out => .ok (a, out)
  | r :: rest, a, out =>
    match r.serve a with
    | .ok granted b => serveAll rest b (settle out r granted)
    | .error stop _ => .error stop

/-- What the answer to a request is worth: the frames are different from each other and from every
frame that is out, and they are whole frames of the pool. -/
structure Granted (a : FrameAllocator) (granted : List ℕ) : Prop where
  nodup : granted.Nodup
  fresh : ∀ x ∈ granted, x ∉ a.lent
  ofPool : ∀ x ∈ granted, ∃ i < a.total, x = a.startOf i

variable {a : FrameAllocator}

theorem Granted.nil (a : FrameAllocator) : Granted a [] := by
  constructor <;> simp

theorem Granted.run {start n : ℕ} (hend : start + n ≤ a.total)
    (hfree : ∀ i < n, a.isTaken (start + i) = false) :
    Granted a ((List.range n).map fun i => a.startOf start + i * 4096) := by
  have hstart : ∀ i, a.startOf start + i * 4096 = a.startOf (start + i) := by
    intro i
    simp only [startOf]
    omega
  simp only [hstart]
  constructor
  · refine List.nodup_range.map fun i j h => ?_
    have := startOf_injective a h
    omega
  · intro x hx
    obtain ⟨i, hi, rfl⟩ := List.mem_map.mp hx
    rw [startOf_mem_lent, hfree i (List.mem_range.mp hi)]
    exact Bool.false_ne_true
  · intro x hx
    obtain ⟨i, hi, rfl⟩ := List.mem_map.mp hx
    have := List.mem_range.mp hi
    exact ⟨start + i, by omega, rfl⟩

/-- A request never stops the kernel, and what is out afterwards is what the ledger says. -/
theorem serve_eq_ok (h : Sound a) (r : Request) :
    ∃ granted b, r.serve a = .ok granted b ∧ Sound b ∧ Granted a granted ∧
      b.lent = settle a.lent r granted ∧ b.region = a.region ∧ b.bitmapRegion = a.bitmapRegion := by
  cases r with
  | frame =>
    rcases allocateFrame_cases h with ⟨hnone, -⟩ | ⟨f, i, hsome, hi, hfree, hbase⟩
    · refine ⟨[], a, by simp [Request.serve, hnone], h, Granted.nil a, ?_, rfl, rfl⟩
      simp [settle, Request.returned]
    · have hrun : Granted a ((List.range 1).map fun j => a.startOf i + j * 4096) :=
        Granted.run (by omega) fun j hj => by
          rw [show i + j = i by omega]
          exact hfree
      refine ⟨[a.startOf i], a.take i, by simp [Request.serve, hsome, hbase], h.take i,
        by simpa using hrun, ?_, region_take a i, bitmapRegion_take a i⟩
      rw [lent_take hi]
      ext x
      simp [settle, Request.returned, or_comm]
  | run size =>
    rcases allocate_cases h size with ⟨e, herror⟩ | ⟨p, start, hok, hend, hfree, hp⟩
    · refine ⟨[], a, by simp only [Request.serve, herror], h, Granted.nil a, ?_, rfl, rfl⟩
      simp [settle, Request.returned]
    · refine ⟨_, a.takeRun start _, by simp only [Request.serve, hok]; rfl, h.takeRun _ _,
        hp ▸ Granted.run hend hfree, ?_, region_takeRun a _ _, bitmapRegion_takeRun a _ _⟩
      rw [lent_takeRun hend]
      ext x
      simp only [settle, Request.returned, Set.sdiff_empty, Set.mem_union, Set.mem_ofPred_eq,
        List.mem_map, List.mem_range, hp, startOf]
      refine or_congr Iff.rfl ⟨?_, ?_⟩
      · rintro ⟨i, hi, rfl⟩
        exact ⟨i, hi, by omega⟩
      · rintro ⟨i, hi, rfl⟩
        exact ⟨i, hi, by omega⟩
  | free p =>
    refine ⟨[], _, rfl, h.deallocate p, Granted.nil a, ?_, region_deallocate a p,
      bitmapRegion_deallocate a p⟩
    rw [lent_deallocate h]
    simp [settle, Request.returned]
  | release f =>
    refine ⟨[], _, rfl, h.deallocate f.base, Granted.nil a, ?_, region_deallocate a f.base,
      bitmapRegion_deallocate a f.base⟩
    rw [lent_deallocate h]
    simp [settle, Request.returned]

/-- A single frame is refused only if all are out. -/
theorem serve_frame_eq_nil_iff (h : Sound a) {b : FrameAllocator} {granted : List ℕ}
    (hserve : Request.frame.serve a = .ok granted b) : granted = [] ↔ a.free = 0 := by
  rcases allocateFrame_handed h with ⟨hnone, hzero⟩ | ⟨f, c, hsome, hhanded⟩
  · simp only [Request.serve, hnone] at hserve
    obtain ⟨rfl, -⟩ := EStateM.Result.ok.inj hserve
    exact iff_of_true rfl hzero
  · simp only [Request.serve, hsome] at hserve
    obtain ⟨rfl, -⟩ := EStateM.Result.ok.inj hserve
    have hcount := hhanded.count
    exact iff_of_false (List.cons_ne_nil _ _) (by omega)

/-- A run of requests never stops the kernel, and ends with the ledger that the bitmap holds. -/
theorem serveAll_eq_ok (h : Sound a) (requests : List Request) :
    ∃ b, serveAll requests a a.lent = .ok (b, b.lent) ∧ Sound b ∧ b.region = a.region ∧
      b.bitmapRegion = a.bitmapRegion := by
  induction requests generalizing a with
  | nil => exact ⟨a, rfl, h, rfl, rfl⟩
  | cons r rest ih =>
    obtain ⟨granted, b, hserve, hb, -, hlent, hregion, hbitmap⟩ := serve_eq_ok h r
    obtain ⟨c, hrun, hc, hcregion, hcbitmap⟩ := ih hb
    refine ⟨c, ?_, hc, hcregion.trans hregion, hcbitmap.trans hbitmap⟩
    simp only [serveAll, hserve]
    rw [← hlent, hrun]

/-- Whole frames of a new allocator's pool do not meet its bitmap. -/
theorem startOf_disjoint_bitmap {region bitmapRegion : Extent} {buffer : Bitmap}
    (h : ofBuffer region bitmapRegion buffer = .ok a)
    (hend : region.base.val + region.length.toNat ≤ 0x10000000000000) {i : ℕ} (hi : i < a.total) :
    a.startOf i + 4096 ≤ a.bitmapRegion.base.val ∨
      a.bitmapRegion.base.val + a.bitmapRegion.length.toNat ≤ a.startOf i := by
  obtain ⟨hflaw, hregion, hbitmap, -, -⟩ := ofBuffer_eq_ok h
  obtain ⟨-, -, hapart, hlength, -⟩ := flaw?_eq_none_iff.mp hflaw
  have hstop := startOf_add_le_stop hi
  have hbase : region.base.val ≤ a.startOf i := by rw [startOf, hregion]; omega
  have hpart : a.bitmapRegion.length.toNat ≤ bitmapRegion.length.toNat := by
    rw [hbitmap, bitmapPart, UInt64.toNat_ofNat']
    exact (Nat.mod_le _ _).trans hlength
  have hsame : a.bitmapRegion.base = bitmapRegion.base := by rw [hbitmap, bitmapPart]
  rw [← Bool.not_eq_true, Extent.overlaps_iff, Extent.stop, Extent.stop] at hapart
  have h₁ := region.base.lt
  have h₂ := bitmapRegion.base.lt
  rw [hregion] at hstop
  rw [hsame]
  omega

/-- No frame is lent twice. Whatever is asked of a new allocator whose pool ends within the physical
addresses, the kernel goes on; the frames in use are those that are out, and the free count is that
of the others, so it never falls below zero; and what the next request hands out are whole aligned
frames of the pool, away from the bitmap, different from each other and from all that is out. A
single frame is refused only if none is left. -/
theorem frames_lent_once {region bitmapRegion : Extent} {buffer : Bitmap}
    (hnew : ofBuffer region bitmapRegion buffer = .ok a)
    (hend : region.base.val + region.length.toNat ≤ 0x10000000000000)
    (requests : List Request) :
    ∃ b out, serveAll requests a ∅ = .ok (b, out) ∧
      (∀ f : Frame, b.isUsed f = true ↔ f.base.val ∈ out) ∧
      b.free + out.ncard = b.total ∧
      ∀ r : Request, ∃ granted c, r.serve b = .ok granted c ∧ granted.Nodup ∧
        (r = .frame → (granted = [] ↔ b.free = 0)) ∧ ∀ x ∈ granted, x ∉ out ∧ x % 4096 = 0 ∧
          region.base.val ≤ x ∧ x + 4096 ≤ region.base.val + region.length.toNat ∧
          (x + 4096 ≤ b.bitmapRegion.base.val ∨
            b.bitmapRegion.base.val + b.bitmapRegion.length.toNat ≤ x) := by
  have hregion := (ofBuffer_eq_ok hnew).2.1
  have hsound : Sound a := sound_ofBuffer hnew (a.startOf_total_le.trans (by rwa [hregion]))
  obtain ⟨b, hrun, hb, hbregion, hbbitmap⟩ := serveAll_eq_ok hsound requests
  rw [lent_ofBuffer hnew] at hrun
  refine ⟨b, b.lent, hrun, fun f => isUsed_iff hb, hb.free_add_lent, fun r => ?_⟩
  obtain ⟨granted, c, hserve, -, hgranted, -⟩ := serve_eq_ok hb r
  refine ⟨granted, c, hserve, hgranted.nodup, ?_, fun x hx => ?_⟩
  · rintro rfl
    exact serve_frame_eq_nil_iff hb hserve
  · obtain ⟨i, hi, rfl⟩ := hgranted.ofPool x hx
    have hi' : i < a.total := by rwa [total, ← hbregion]
    have hstart : b.startOf i = a.startOf i := by rw [startOf, startOf, hbregion]
    have hstop := startOf_add_le_stop hi'
    have hapart := startOf_disjoint_bitmap hnew hend hi'
    have haligned := hsound.aligned
    refine ⟨hgranted.fresh _ hx, ?_, ?_, ?_, ?_⟩
    · rw [hstart, startOf]; omega
    · rw [hstart, startOf, hregion]; omega
    · rw [hstart, ← hregion]; exact hstop
    · rw [hstart, hbbitmap]; exact hapart

/-- Two frames are lent, the second one comes back, and a frame is lent again; the pool ends with a
partial frame. -/
theorem frames_lent_once_partial_frame :
    ∃ a, ofBuffer ⟨⟨0x100000, by decide⟩, 0x3800⟩ ⟨⟨0x1000, by decide⟩, 1⟩ ⟨#[0xff]⟩ = .ok a ∧
      ∃ b out, serveAll [.run 5000, .free ⟨0x101000, by decide⟩, .frame] a ∅ = .ok (b, out) ∧
        b.free + out.ncard = b.total ∧
        ∃ granted c, Request.serve (.run 8192) b = .ok granted c ∧ granted.Nodup ∧
          ∀ x ∈ granted, x ∉ out := by
  obtain ⟨a, hnew⟩ : ∃ a, ofBuffer ⟨⟨0x100000, by decide⟩, 0x3800⟩ ⟨⟨0x1000, by decide⟩, 1⟩
      ⟨#[0xff]⟩ = .ok a := ⟨_, rfl⟩
  obtain ⟨b, out, hrun, -, hcount, hnext⟩ := frames_lent_once hnew (by decide)
    [.run 5000, .free ⟨0x101000, by decide⟩, .frame]
  obtain ⟨granted, c, hserve, hnodup, -, hall⟩ := hnext (.run 8192)
  exact ⟨a, hnew, b, out, hrun, hcount, granted, c, hserve, hnodup, fun x hx => (hall x hx).1⟩

end FrameAllocator

end KernelCore
