import KernelCore.Frames.Bitmap
import KernelCore.Memory.FramePool

/-!
# Frame allocator

First fit over the frames of one region, with a bit per frame that is set while the frame is handed
out. Which frames are handed out is read through `isTaken`; `reserveFrame`, `reserveRun` and
`release` work on frame indices and cannot stop the kernel, and the operations on addresses stand on
them.
-/

namespace KernelCore

inductive FrameError
  /-- No free frame, or no run of free frames that is long enough. -/
  | outOfFrames
  | zeroSize
  | emptyRegion
  | unaligned
  | overlap
  | bitmapTooSmall
deriving DecidableEq, Repr

def FrameError.message : FrameError → String
  | .outOfFrames => "Out of physical frames"
  | .zeroSize => "Zero-sized allocation"
  | .emptyRegion => "Region holds no whole frame"
  | .unaligned => "Region base is not frame aligned"
  | .overlap => "Bitmap overlaps the frame pool"
  | .bitmapTooSmall => "Bitmap storage too small for the pool"

/-- The lowest of the `n` indices from `i` on that is not taken. -/
def firstFree? (taken : Nat → Bool) : (n i : Nat) → Option Nat
  | 0, _ => none
  | n + 1, i => if taken i then firstFree? taken n (i + 1) else some i

/-- The lowest start of `count` indices in a row that are not taken, among the `run` free ones just
below `i` and the `n` from `i` on. -/
def firstRun? (taken : Nat → Bool) (count : Nat) : (n i run : Nat) → Option Nat
  | 0, _, _ => none
  | n + 1, i, run =>
    if taken i then firstRun? taken count n (i + 1) 0
    else if run + 1 = count then some (i - run)
    else firstRun? taken count n (i + 1) (run + 1)

theorem firstFree?_eq_none {taken : Nat → Bool} {n i : Nat} :
    firstFree? taken n i = none ↔ ∀ k, i ≤ k → k < i + n → taken k = true := by
  induction n generalizing i with
  | zero => simp only [firstFree?, true_iff]; omega
  | succ n ih =>
    rw [firstFree?]
    by_cases h : taken i
    · rw [if_pos h, ih]
      constructor
      · intro hall k h₁ h₂
        by_cases hk : k = i
        · exact hk ▸ h
        · exact hall k (by omega) (by omega)
      · intro hall k h₁ h₂
        exact hall k (by omega) (by omega)
    · rw [if_neg h]
      simp only [reduceCtorEq, false_iff]
      intro hall
      exact h (hall i (by omega) (by omega))

theorem firstFree?_eq_some {taken : Nat → Bool} {n i j : Nat} :
    firstFree? taken n i = some j ↔
      i ≤ j ∧ j < i + n ∧ taken j = false ∧ ∀ k, i ≤ k → k < j → taken k = true := by
  induction n generalizing i with
  | zero => simp only [firstFree?, reduceCtorEq, false_iff]; omega
  | succ n ih =>
    rw [firstFree?]
    by_cases h : taken i
    · rw [if_pos h, ih]
      constructor
      · intro ⟨h₁, h₂, h₃, h₄⟩
        refine ⟨by omega, by omega, h₃, fun k hk₁ hk₂ => ?_⟩
        by_cases hk : k = i
        · exact hk ▸ h
        · exact h₄ k (by omega) hk₂
      · intro ⟨h₁, h₂, h₃, h₄⟩
        have hij : i ≠ j := fun hij => by rw [hij, h₃] at h; contradiction
        exact ⟨by omega, by omega, h₃, fun k hk₁ hk₂ => h₄ k (by omega) hk₂⟩
    · rw [if_neg h]
      constructor
      · intro hj
        obtain rfl := Option.some.inj hj
        exact ⟨by omega, by omega, by simpa using h, fun k hk₁ hk₂ => by omega⟩
      · intro ⟨h₁, h₂, h₃, h₄⟩
        apply Decidable.byContradiction
        intro hij
        have : i ≠ j := fun e => hij (congrArg some e)
        exact h (h₄ i (by omega) (by omega))

/-- The run that is found is free, and lies where it was looked for. -/
theorem firstRun?_free {taken : Nat → Bool} {count n i run start : Nat} (hrun : run ≤ i)
    (hfree : ∀ k, i - run ≤ k → k < i → taken k = false)
    (h : firstRun? taken count n i run = some start) :
    i - run ≤ start ∧ start + count ≤ i + n ∧
      ∀ k, start ≤ k → k < start + count → taken k = false := by
  induction n generalizing i run with
  | zero => simp [firstRun?] at h
  | succ n ih =>
    rw [firstRun?] at h
    split at h
    · have := ih (by omega) (fun k h₁ h₂ => by omega) h
      exact ⟨by omega, by omega, this.2.2⟩
    · rename_i hi
      split at h
      · obtain rfl := Option.some.inj h
        refine ⟨by omega, by omega, fun k h₁ h₂ => ?_⟩
        by_cases hk : k = i
        · exact hk ▸ by simpa using hi
        · exact hfree k h₁ (by omega)
      · have := ih (by omega) (fun k h₁ h₂ => by
          by_cases hk : k = i
          · exact hk ▸ by simpa using hi
          · exact hfree k (by omega) (by omega)) h
        exact ⟨by omega, by omega, this.2.2⟩

structure FrameAllocator where
  /-- The frames that are handed out. -/
  region : Extent
  /-- Where the bitmap lies. -/
  bitmapRegion : Extent
  bitmap : Bitmap
  /-- Every frame has a bit. -/
  fits : region.frameCount ≤ 8 * bitmap.bytes.size
  /-- Number of free frames. -/
  free : Nat
deriving DecidableEq, Repr

namespace FrameAllocator

/-- What is wrong with a pool, the region of its bitmap and the bytes given for the bitmap. -/
def flaw? (region bitmapRegion : Extent) (size : Nat) : Option FrameError :=
  let needed := bitmapSize region.frameCount
  if !region.base.isAligned then some .unaligned
  else if region.frameCount = 0 then some .emptyRegion
  else if region.overlaps bitmapRegion then some .overlap
  else if bitmapRegion.length.toNat < needed || size < needed then some .bitmapTooSmall
  else none

theorem size_of_flaw?_eq_none {region bitmapRegion : Extent} {size : Nat}
    (h : flaw? region bitmapRegion size = none) : bitmapSize region.frameCount ≤ size := by
  simp only [flaw?] at h
  split at h <;> try contradiction
  split at h <;> try contradiction
  split at h <;> try contradiction
  split at h <;> simp_all

/-- The part of a bitmap region that the bitmap of a pool fills. -/
def bitmapPart (region bitmapRegion : Extent) : Extent :=
  ⟨bitmapRegion.base, UInt64.ofNat (bitmapSize region.frameCount)⟩

/-- An allocator over `region` with every frame free, which uses the first bytes of `buffer`. -/
def ofBuffer (region bitmapRegion : Extent) (buffer : Bitmap) :
    Except FrameError FrameAllocator :=
  match h : flaw? region bitmapRegion buffer.bytes.size with
  | some e => .error e
  | none => .ok
    { region
      bitmapRegion := bitmapPart region bitmapRegion
      bitmap := buffer.clearBytes (bitmapSize region.frameCount)
      fits := by
        have := size_of_flaw?_eq_none h
        rw [Bitmap.size_clearBytes]
        simp only [bitmapSize] at this
        omega
      free := region.frameCount }

def total (a : FrameAllocator) : Nat := a.region.frameCount

def used (a : FrameAllocator) : Nat := a.total - a.free

/-- Whether the frame of an index is handed out. -/
def isTaken (a : FrameAllocator) (i : Nat) : Bool := i < a.total && a.bitmap.get i

def take (a : FrameAllocator) (i : Nat) : FrameAllocator :=
  if i < a.total && !a.isTaken i then
    { a with bitmap := a.bitmap.set i, free := a.free - 1, fits := by simp [a.fits] }
  else a

def takeRun (a : FrameAllocator) (start : Nat) : Nat → FrameAllocator
  | 0 => a
  | count + 1 => takeRun (a.take start) (start + 1) count

def release (a : FrameAllocator) (i : Nat) : FrameAllocator :=
  if a.isTaken i then
    { a with bitmap := a.bitmap.clear i, free := a.free + 1, fits := by simp [a.fits] }
  else a

/-- The lowest free frame. -/
def reserveFrame (a : FrameAllocator) : Option (Nat × FrameAllocator) :=
  if a.free = 0 then none
  else (firstFree? a.isTaken a.total 0).map fun i => (i, a.take i)

/-- The first run of free frames that holds `size` bytes. -/
def reserveRun (a : FrameAllocator) (size : Nat) : Except FrameError (Nat × FrameAllocator) :=
  let count := (size + 4095) / 4096
  if size = 0 then .error .zeroSize
  else if a.free < count then .error .outOfFrames
  else match firstRun? a.isTaken count a.total 0 0 with
    | none => .error .outOfFrames
    | some start => .ok (start, a.takeRun start count)

def addressOf (a : FrameAllocator) (i : Nat) : Except Panic PhysAddr :=
  a.region.base.add (i * 4096)

def indexOf? (a : FrameAllocator) (p : PhysAddr) : Option Nat :=
  let i := (p.val - a.region.base.val) / 4096
  if a.region.base.val ≤ p.val ∧ i < a.total then some i else none

/-- The address of the first of enough frames in a row for `size` bytes. -/
def allocate (size : Nat) : EStateM Panic FrameAllocator (Except FrameError PhysAddr) := fun a =>
  match a.reserveRun size with
  | .error e => .ok (.error e) a
  | .ok (start, a') =>
    match a'.addressOf start with
    | .ok p => .ok (.ok p) a'
    | .error stop => .error stop a'

def allocateFrame : EStateM Panic FrameAllocator (Option Frame) := fun a =>
  match a.reserveFrame with
  | none => .ok none a
  | some (i, a') =>
    match a'.addressOf i with
    | .ok p => .ok (some (.containing p)) a'
    | .error stop => .error stop a'

/-- Takes a frame back. Addresses that are not those of a handed-out frame are ignored. -/
def deallocate (a : FrameAllocator) (p : PhysAddr) : FrameAllocator :=
  if a.region.contains p && p.isAligned then
    match a.indexOf? p with
    | some i => a.release i
    | none => a
  else a

/-- Whether a frame is handed out, which no frame outside the region ever is. -/
def isUsed (a : FrameAllocator) (f : Frame) : Bool :=
  match a.indexOf? f.base with
  | some i => a.isTaken i
  | none => false

@[simp] theorem region_take (a : FrameAllocator) (i : Nat) : (a.take i).region = a.region := by
  unfold take; split <;> rfl

@[simp] theorem region_takeRun (a : FrameAllocator) (i n : Nat) :
    (a.takeRun i n).region = a.region := by
  induction n generalizing a i with
  | zero => rfl
  | succ n ih => rw [takeRun, ih, region_take]

@[simp] theorem region_release (a : FrameAllocator) (i : Nat) :
    (a.release i).region = a.region := by
  unfold release; split <;> rfl

@[simp] theorem total_take (a : FrameAllocator) (i : Nat) : (a.take i).total = a.total := by
  rw [total, region_take, total]

@[simp] theorem total_takeRun (a : FrameAllocator) (i n : Nat) :
    (a.takeRun i n).total = a.total := by
  rw [total, region_takeRun, total]

@[simp] theorem total_release (a : FrameAllocator) (i : Nat) : (a.release i).total = a.total := by
  rw [total, region_release, total]

theorem isTaken_take (a : FrameAllocator) (i j : Nat) :
    (a.take i).isTaken j = (a.isTaken j || decide (i = j ∧ j < a.total)) := by
  have hfits := a.fits
  have htotal : a.region.frameCount = a.total := rfl
  rw [isTaken, total_take]
  by_cases hj : j < a.total
  · by_cases hi : i < a.total
    · by_cases hg : a.bitmap.get i
      · have ht : a.take i = a := by simp [take, isTaken, hi, hg]
        by_cases hij : i = j
        · subst hij; simp [ht, isTaken, hi, hg]
        · simp [ht, isTaken, hij]
      · have hb : (a.take i).bitmap = a.bitmap.set i := by simp [take, isTaken, hi, hg]
        rw [hb, Bitmap.get_set _ _ (by omega)]
        simp [isTaken, hj]
    · have ht : a.take i = a := by simp [take, hi]
      simp [ht, isTaken, show i ≠ j by omega]
  · simp [isTaken, hj]

theorem isTaken_takeRun (a : FrameAllocator) (start n j : Nat) :
    (a.takeRun start n).isTaken j =
      (a.isTaken j || decide (start ≤ j ∧ j < start + n ∧ j < a.total)) := by
  induction n generalizing a start with
  | zero => simp [takeRun]; omega
  | succ n ih =>
    rw [takeRun, ih, isTaken_take, total_take, Bool.or_assoc]
    congr 1
    rw [← Bool.decide_or, decide_eq_decide]
    omega

theorem isTaken_release (a : FrameAllocator) (i j : Nat) :
    (a.release i).isTaken j = (a.isTaken j && decide (i ≠ j)) := by
  rw [isTaken, total_release]
  by_cases ht : a.isTaken i
  · have hb : (a.release i).bitmap = a.bitmap.clear i := by simp [release, ht]
    rw [hb, Bitmap.get_clear, isTaken, Bool.and_assoc]
    simp
  · have hr : a.release i = a := by simp [release, ht]
    rw [hr]
    by_cases hij : i = j
    · subst hij
      have : a.isTaken i = false := by simpa using ht
      simpa [isTaken] using this
    · simp [isTaken, hij]

end FrameAllocator

end KernelCore
