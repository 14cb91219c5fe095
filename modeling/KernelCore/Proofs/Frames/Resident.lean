import KernelCore.Machine.Tables
import KernelCore.Proofs.Frames.Loans

/-!
# The allocator in memory

The kernel's allocator is loaded from memory for each request and stored again after it. As no
request changes the size of the bitmap, what is stored is what the next request loads, so a run of
requests to the kernel is the same run of requests to one allocator; and of memory only the bytes of
the bitmap change.
-/

namespace KernelCore

namespace Memory

@[simp] theorem length_bytes (m : Memory) (a n : ℕ) : (m.bytes a n).length = n := by
  simp [bytes]

theorem bytes_congr {m k : Memory} {a n : ℕ} (h : ∀ c, a ≤ c → c < a + n → m.byte c = k.byte c) :
    m.bytes a n = k.bytes a n := by
  apply List.map_congr_left
  intro i hi
  have hlt := List.mem_range.mp hi
  exact h (a + i) (by omega) (by omega)

theorem bytes_setBytes (m : Memory) (a : ℕ) (bs : List UInt8) :
    (m.setBytes a bs).bytes a bs.length = bs := by
  apply List.ext_getElem
  · rw [length_bytes]
  · intro i h₁ h₂
    simp [bytes, byte_setBytes, h₂]

theorem byte_setBytes_of_notMem (m : Memory) {a c : ℕ} {bs : List UInt8}
    (h : c < a ∨ a + bs.length ≤ c) : (m.setBytes a bs).byte c = m.byte c := by
  rw [byte_setBytes]
  split
  · rw [List.getElem?_eq_none (by omega)]
    rfl
  · rfl

end Memory

namespace FrameAllocator

variable {a b : FrameAllocator}

/-- Both hand out the frames of one region and keep their books in one place. -/
structure SamePlace (a b : FrameAllocator) : Prop where
  region : b.region = a.region
  bitmapRegion : b.bitmapRegion = a.bitmapRegion
  size : b.bitmap.bytes.size = a.bitmap.bytes.size

theorem SamePlace.refl (a : FrameAllocator) : SamePlace a a := ⟨rfl, rfl, rfl⟩

theorem SamePlace.trans {c : FrameAllocator} (h₁ : SamePlace a b) (h₂ : SamePlace b c) :
    SamePlace a c :=
  ⟨h₂.region.trans h₁.region, h₂.bitmapRegion.trans h₁.bitmapRegion, h₂.size.trans h₁.size⟩

theorem samePlace_take (a : FrameAllocator) (i : ℕ) : SamePlace a (a.take i) := by
  refine ⟨region_take a i, bitmapRegion_take a i, ?_⟩
  unfold take
  split
  · exact Bitmap.size_set _ _
  · rfl

theorem samePlace_takeRun (a : FrameAllocator) (start n : ℕ) :
    SamePlace a (a.takeRun start n) := by
  induction n generalizing a start with
  | zero => exact .refl a
  | succ n ih => exact (samePlace_take a start).trans (ih (a.take start) (start + 1))

theorem samePlace_release (a : FrameAllocator) (i : ℕ) : SamePlace a (a.release i) := by
  refine ⟨region_release a i, bitmapRegion_release a i, ?_⟩
  unfold release
  split
  · exact Bitmap.size_clear _ _
  · rfl

theorem samePlace_deallocate (a : FrameAllocator) (p : PhysAddr) :
    SamePlace a (a.deallocate p) := by
  rcases deallocate_eq a p with h | ⟨i, h⟩
  · rw [h]
    exact .refl a
  · rw [h]
    exact samePlace_release a i

theorem samePlace_allocateFrame (h : Sound a) {f : Option Frame}
    (hok : allocateFrame a = .ok f b) : SamePlace a b := by
  rcases allocateFrame_cases h with ⟨hnone, -⟩ | ⟨g, i, hsome, -⟩
  · obtain ⟨-, rfl⟩ := EStateM.Result.ok.inj (hnone.symm.trans hok)
    exact .refl a
  · obtain ⟨-, rfl⟩ := EStateM.Result.ok.inj (hsome.symm.trans hok)
    exact samePlace_take a i

theorem samePlace_allocate (h : Sound a) {size : ℕ} {p : Except FrameError PhysAddr}
    (hok : allocate size a = .ok p b) : SamePlace a b := by
  rcases allocate_cases h size with ⟨e, herror⟩ | ⟨q, start, hrun, -⟩
  · obtain ⟨-, rfl⟩ := EStateM.Result.ok.inj (herror.symm.trans hok)
    exact .refl a
  · obtain ⟨-, rfl⟩ := EStateM.Result.ok.inj (hrun.symm.trans hok)
    exact samePlace_takeRun a start _

end FrameAllocator

namespace ResidentAllocator

open FrameAllocator

variable {r : ResidentAllocator} {a : FrameAllocator}

theorem size_load (r : ResidentAllocator) (m : Memory) : (r.load m).bitmap.bytes.size = r.size := by
  simp [load]

/-- What is loaded depends on the bytes of the bitmap alone. -/
theorem load_congr {m k : Memory} (h : ∀ c, r.storage.val ≤ c → c < r.storage.val + r.size →
    m.byte c = k.byte c) : r.load m = r.load k := by
  have hbytes : m.bytes r.storage.val r.size = k.bytes r.storage.val r.size := Memory.bytes_congr h
  simp only [load, hbytes]

theorem load_store {m : Memory} (h : SamePlace (r.load m) a) :
    (r.store a m).1.load (r.store a m).2 = a := by
  have hlength : a.bitmap.bytes.toList.length = r.size := by
    rw [Array.length_toList, h.size, size_load]
  have hbytes : (m.setBytes r.storage.val a.bitmap.bytes.toList).bytes r.storage.val r.size =
      a.bitmap.bytes.toList := by
    rw [← hlength]
    exact Memory.bytes_setBytes m _ _
  obtain ⟨region, bitmapRegion, ⟨bytes⟩, fits, free⟩ := a
  obtain ⟨rfl, rfl, -⟩ := h
  simp only [load, store]
  congr 2
  exact congrArg List.toArray hbytes

/-- Storing changes no byte outside the bitmap. -/
theorem byte_store {m : Memory} (h : SamePlace (r.load m) a) {c : ℕ}
    (hc : c < r.storage.val ∨ r.storage.val + r.size ≤ c) :
    (r.store a m).2.byte c = m.byte c := by
  apply Memory.byte_setBytes_of_notMem
  rw [Array.length_toList, h.size, size_load]
  exact hc

end ResidentAllocator

namespace Machine

open FrameAllocator ResidentAllocator

/-- The machine once the allocator `a` is stored in the place of `r`. -/
def storing (m : Machine) (r : ResidentAllocator) (a : FrameAllocator) : Machine :=
  { m with frames := some (r.store a m.memory).1, memory := (r.store a m.memory).2 }

/-- The allocator `a` lies in the memory of `m` where `r` says, and its books are in order. -/
structure Lends (m : Machine) (r : ResidentAllocator) (a : FrameAllocator) : Prop where
  frames : m.frames = some r
  load : r.load m.memory = a
  sound : Sound a

variable {m : Machine} {r : ResidentAllocator} {a b : FrameAllocator}

theorem Lends.storing (h : Lends m r a) (hplace : SamePlace a b) (hsound : Sound b) :
    Lends (m.storing r b) (r.store b m.memory).1 b := by
  refine ⟨rfl, ?_, hsound⟩
  apply load_store
  rw [h.load]
  exact hplace

theorem Lends.byte_storing (h : Lends m r a) (hplace : SamePlace a b) {c : ℕ}
    (hc : c < r.storage.val ∨ r.storage.val + r.size ≤ c) :
    (m.storing r b).memory.byte c = m.memory.byte c := by
  apply ResidentAllocator.byte_store _ hc
  rw [h.load]
  exact hplace

end Machine

namespace Kernel

open FrameAllocator Machine

variable {m : Machine} {r : ResidentAllocator} {a b : FrameAllocator}

theorem onFrames_eq_ok (h : Lends m r a) {α : Type} {f : EStateM Panic FrameAllocator α} {x : α}
    (hf : f a = .ok x b) : onFrames f m = .ok (some x) (m.storing r b) := by
  simp only [onFrames, h.frames, h.load, hf]
  rfl

theorem allocateFrame_eq_ok (h : Lends m r a) {f : Option Frame}
    (hf : FrameAllocator.allocateFrame a = .ok f b) :
    allocateFrame m = .ok f (m.storing r b) := by
  simp only [allocateFrame, bind, EStateM.bind, onFrames_eq_ok h hf]
  rfl

theorem allocateRun_eq_ok (h : Lends m r a) {size : ℕ} {p : Except FrameError PhysAddr}
    (hp : FrameAllocator.allocate size a = .ok p b) :
    allocateRun size m = .ok p (m.storing r b) := by
  simp only [allocateRun, bind, EStateM.bind, onFrames_eq_ok h hp]
  rfl

theorem releaseFrame_eq_ok (h : Lends m r a) (p : PhysAddr) :
    releaseFrame p m = .ok () (m.storing r (a.deallocate p)) := by
  have hf : (modify fun a : FrameAllocator => a.deallocate p : EStateM Panic FrameAllocator Unit) a
      = .ok () (a.deallocate p) := rfl
  simp only [releaseFrame, bind, EStateM.bind, onFrames_eq_ok h hf]
  rfl

/-- Start addresses of the frames that make up `size` bytes from `p` on. -/
def framesOf (p : PhysAddr) (size : ℕ) : List ℕ :=
  (List.range ((size + 4095) / 4096)).map fun i => p.val + i * 4096

/-- Puts a request to the kernel, and lists the start address of every frame that it hands out. -/
def serve : Request → Kernel (List ℕ)
  | .frame => do
    return (← allocateFrame).toList.map (·.base.val)
  | .run size => do
    match ← allocateRun size with
    | .ok p => pure (framesOf p size)
    | .error _ => pure []
  | .free p => do
    releaseFrame p
    pure []
  | .release f => do
    releaseFrame f.base
    pure []

/-- Puts requests one after the other, and lists all that is handed out. -/
def serveAll : List Request → Kernel (List ℕ)
  | [] => pure []
  | q :: rest => do
    let granted ← serve q
    let later ← serveAll rest
    pure (granted ++ later)

/-- The kernel answers a request as its allocator does. -/
theorem serve_eq (h : Lends m r a) (q : Request) {granted : List ℕ}
    (hq : q.serve a = .ok granted b) :
    serve q m = .ok granted (m.storing r b) ∧ SamePlace a b := by
  cases q with
  | frame =>
    simp only [Request.serve] at hq
    cases hf : FrameAllocator.allocateFrame a with
    | error stop c => simp [hf] at hq
    | ok f c =>
      rw [hf] at hq
      obtain ⟨rfl, rfl⟩ := EStateM.Result.ok.inj hq
      refine ⟨?_, samePlace_allocateFrame h.sound hf⟩
      simp only [serve, bind, EStateM.bind, allocateFrame_eq_ok h hf]
      rfl
  | run size =>
    simp only [Request.serve] at hq
    cases hp : FrameAllocator.allocate size a with
    | error stop c => simp [hp] at hq
    | ok p c =>
      refine ⟨?_, ?_⟩
      · cases p <;>
        · simp only [hp] at hq
          obtain ⟨rfl, rfl⟩ := EStateM.Result.ok.inj hq
          simp only [serve, bind, EStateM.bind, allocateRun_eq_ok h hp]
          rfl
      · have hplace := samePlace_allocate h.sound hp
        cases p <;>
        · simp only [hp] at hq
          obtain ⟨-, rfl⟩ := EStateM.Result.ok.inj hq
          exact hplace
  | free p =>
    obtain ⟨rfl, rfl⟩ := EStateM.Result.ok.inj hq
    refine ⟨?_, samePlace_deallocate a p⟩
    simp only [serve, bind, EStateM.bind, releaseFrame_eq_ok h p]
    rfl
  | release f =>
    obtain ⟨rfl, rfl⟩ := EStateM.Result.ok.inj hq
    refine ⟨?_, samePlace_deallocate a f.base⟩
    simp only [serve, bind, EStateM.bind, releaseFrame_eq_ok h f.base]
    rfl

/-- A request to the kernel never stops it, and is answered with frames that were free. -/
theorem serve_eq_ok (h : Lends m r a) (q : Request) :
    ∃ granted b, serve q m = .ok granted (m.storing r b) ∧
      Lends (m.storing r b) (r.store b m.memory).1 b ∧ SamePlace a b ∧ Granted a granted ∧
      b.lent = settle a.lent q granted := by
  obtain ⟨granted, b, hq, hsound, hgranted, hlent, -, -⟩ := FrameAllocator.serve_eq_ok h.sound q
  obtain ⟨hserve, hplace⟩ := serve_eq h q hq
  exact ⟨granted, b, hserve, h.storing hplace hsound, hplace, hgranted, hlent⟩

/-- A run of requests never stops the kernel, and hands out frames of the pool only. -/
theorem serveAll_eq_ok (h : Lends m r a) (requests : List Request) :
    ∃ granted m', serveAll requests m = .ok granted m' ∧
      ∀ x ∈ granted, ∃ i < a.total, x = a.startOf i := by
  induction requests generalizing m r a with
  | nil => exact ⟨[], m, rfl, by simp⟩
  | cons q rest ih =>
    obtain ⟨granted, b, hserve, hlends, hplace, hgranted, -⟩ := serve_eq_ok h q
    obtain ⟨later, m', hrun, hlater⟩ := ih hlends
    refine ⟨granted ++ later, m', ?_, ?_⟩
    · simp only [serveAll, bind, EStateM.bind, hserve, hrun]
      rfl
    · intro x hx
      cases List.mem_append.mp hx with
      | inl hnow => exact hgranted.ofPool x hnow
      | inr hthen =>
        have hpool := hlater x hthen
        simp only [total, startOf, hplace.region] at hpool
        exact hpool

end Kernel

end KernelCore
