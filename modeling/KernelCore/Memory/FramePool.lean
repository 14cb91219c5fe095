import KernelCore.Memory.BootMap

/-!
# Frame pool

The longest usable entry of the memory map becomes the pool of frames. Its bitmap goes into the
longest other usable entry that can hold it, or else into the last frames of the pool itself, which
is shortened.
-/

namespace KernelCore

inductive LayoutError
  | noUsableMemory
  | poolTooSmall
deriving DecidableEq, Repr

def LayoutError.message : LayoutError → String
  | .noUsableMemory => "No usable memory region"
  | .poolTooSmall => "Usable region too small for a frame pool"

/-- Bytes that hold one bit for each of `frames` frames. -/
def bitmapSize (frames : Nat) : Nat := (frames + 7) / 8

structure FramePool where
  /-- The frames to hand out. -/
  frames : Extent
  /-- Where their bitmap goes. -/
  bitmap : Extent
deriving DecidableEq, Repr

namespace FramePool

/-- The longest of some numbered entries; of equally long ones the last. -/
def longest? : List (MapEntry × Nat) → Option (MapEntry × Nat)
  | [] => none
  | r :: rest =>
    match longest? rest with
    | none => some r
    | some best => if r.1.length ≤ best.1.length then some best else some r

theorem longest?_mem {rs : List (MapEntry × Nat)} {r : MapEntry × Nat}
    (h : longest? rs = some r) : r ∈ rs := by
  induction rs with
  | nil => simp [longest?] at h
  | cons s rest ih =>
    simp only [longest?] at h
    split at h
    · simp_all
    · rename_i best hbest
      split at h <;> simp_all

theorem longest?_eq_none_iff {rs : List (MapEntry × Nat)} : longest? rs = none ↔ rs = [] := by
  cases rs with
  | nil => simp [longest?]
  | cons r rest => simp only [longest?]; split <;> (try split) <;> simp

theorem length_le_longest? {rs : List (MapEntry × Nat)} {r s : MapEntry × Nat}
    (h : longest? rs = some r) (hs : s ∈ rs) : s.1.length ≤ r.1.length := by
  induction rs generalizing r with
  | nil => simp at hs
  | cons t rest ih =>
    simp only [longest?] at h
    split at h
    · rename_i hn
      obtain rfl := longest?_eq_none_iff.mp hn
      simp_all
    · rename_i best hbest
      split at h <;> rename_i hle <;> cases h <;> rcases List.mem_cons.mp hs with rfl | hs'
      · exact hle
      · exact ih hbest hs'
      · exact UInt64.le_refl _
      · exact UInt64.le_trans (ih hbest hs') (UInt64.le_of_lt (UInt64.not_le.mp hle))

/-- Cuts off as many frames at the end of an extent as the bitmap needs. -/
def carve (whole : Extent) (needed : Nat) : ExceptT LayoutError (Except Panic) FramePool := do
  let bitmapFrames := (needed + 4095) / 4096
  if whole.frameCount ≤ bitmapFrames then throw .poolTooSmall
  let frames : Extent :=
    ⟨whole.base, UInt64.ofNat ((whole.frameCount - bitmapFrames) * 4096)⟩
  let bitmapBase ← (PhysAddr.ofNat frames.stop : Except Panic PhysAddr)
  pure ⟨frames, bitmapBase, UInt64.ofNat (bitmapFrames * 4096)⟩

def ofEntries (entries : List MapEntry) : ExceptT LayoutError (Except Panic) FramePool := do
  let usable := entries.zipIdx.filter (·.1.isUsable)
  match longest? usable with
  | none => throw .noUsableMemory
  | some (entry, index) =>
    let frames ← (entry.extent : Except Panic Extent)
    let needed := bitmapSize frames.frameCount
    match longest? (usable.filter fun (e, i) => i != index && needed ≤ e.length.toNat) with
    | some (other, _) => pure ⟨frames, ← (other.extent : Except Panic Extent)⟩
    | none => carve frames needed

end FramePool

end KernelCore
