import KernelCore.Frames.Allocator
import KernelCore.Paging.Mapper

/-!
# Arena of page tables

Page tables in consecutive frames, with the allocator that hands those frames out. No access to an
arena stops the processor. `read?_write?` and `read?_fillTable?` say how reads see changes.
-/

namespace KernelCore

structure Arena where
  base : PhysAddr
  /-- Number of tables. -/
  count : Nat
  /-- The entries of all tables, table after table. -/
  entries : Array Entry
  size_entries : entries.size = count * 512
  root : Option Frame
  frames : FrameAllocator
  /-- Pages whose translation was dropped, the latest first. -/
  invalidated : List VirtAddr

namespace Arena

/-- Zeroed tables. -/
def zeroed (base : PhysAddr) (count : Nat) (root : Option Frame) (frames : FrameAllocator) :
    Arena :=
  ⟨base, count, Array.replicate (count * 512) .absent, Array.size_replicate, root, frames, []⟩

/-- Number of the table in a frame. -/
def tableNumber? (a : Arena) (f : Frame) : Option Nat :=
  let i := (f.base.val - a.base.val) / 4096
  if a.base.val ≤ f.base.val ∧ i < a.count then some i else none

theorem tableNumber?_lt {a : Arena} {f : Frame} {t : Nat} (h : a.tableNumber? f = some t) :
    t < a.count := by
  simp only [tableNumber?] at h
  split at h <;> simp_all

theorem tableNumber?_congr {a b : Arena} {f : Frame} (hbase : b.base = a.base)
    (hcount : b.count = a.count) : b.tableNumber? f = a.tableNumber? f := by
  rw [tableNumber?, tableNumber?, hbase, hcount]

/-- A table lies in one frame only. -/
theorem tableNumber?_inj {a : Arena} {f g : Frame} {t : Nat} (hf : a.tableNumber? f = some t)
    (hg : a.tableNumber? g = some t) : f = g := by
  simp only [tableNumber?, Option.ite_none_right_eq_some, Option.some.injEq] at hf hg
  ext1
  simp only [Frame.base] at hf hg
  omega

def read? (a : Arena) (f : Frame) (i : TableIndex) : Option Entry :=
  (a.tableNumber? f).map fun t => a.entries[t * 512 + i.val]?.getD .absent

def write? (a : Arena) (f : Frame) (i : TableIndex) (e : Entry) : Option Arena :=
  (a.tableNumber? f).map fun t =>
    { a with
      entries := a.entries.setIfInBounds (t * 512 + i.val) e
      size_entries := by simp [a.size_entries] }

/-- Puts one value into the `n` entries from `i` on. -/
def fill (entries : Array Entry) (e : Entry) (i : Nat) : Nat → Array Entry
  | 0 => entries
  | n + 1 => fill (entries.setIfInBounds i e) e (i + 1) n

@[simp] theorem size_fill (entries : Array Entry) (e : Entry) (i n : Nat) :
    (fill entries e i n).size = entries.size := by
  induction n generalizing entries i with
  | zero => rfl
  | succ n ih => rw [fill, ih, Array.size_setIfInBounds]

theorem getElem?_fill (entries : Array Entry) (e : Entry) (i n j : Nat) :
    (fill entries e i n)[j]? =
      if i ≤ j ∧ j < i + n ∧ j < entries.size then some e else entries[j]? := by
  induction n generalizing entries i with
  | zero => rw [fill, if_neg (by omega)]
  | succ n ih =>
    rw [fill, ih, Array.getElem?_setIfInBounds, Array.size_setIfInBounds]
    grind

def fillTable? (a : Arena) (f : Frame) (e : Entry) : Option Arena :=
  (a.tableNumber? f).map fun t =>
    { a with
      entries := fill a.entries e (t * 512) 512
      size_entries := by simp [a.size_entries] }

theorem read?_write? {a b : Arena} {f : Frame} {i : TableIndex} {e : Entry}
    (h : a.write? f i e = some b) (g : Frame) (j : TableIndex) :
    b.read? g j = if f = g ∧ i = j then some e else a.read? g j := by
  obtain ⟨t, ht, hb⟩ := Option.map_eq_some_iff.mp h
  have hsize := a.size_entries
  have hlt := tableNumber?_lt ht
  have hi := i.isLt
  have hj := j.isLt
  have hentries : b.entries = a.entries.setIfInBounds (t * 512 + i.val) e := by rw [← hb]
  have hnumber : b.tableNumber? g = a.tableNumber? g :=
    tableNumber?_congr (by rw [← hb]) (by rw [← hb])
  rw [read?, read?, hnumber, hentries]
  cases hu : a.tableNumber? g with
  | none =>
    rw [if_neg]
    · simp only [Option.map_none]
    · rintro ⟨rfl, -⟩; simp [ht] at hu
  | some u =>
    simp only [Option.map_some, Array.getElem?_setIfInBounds]
    by_cases hfg : f = g
    · subst hfg
      obtain rfl : t = u := by simpa [ht] using hu
      by_cases hij : i = j
      · subst hij; simp [show t * 512 + i.val < a.entries.size by omega]
      · have : i.val ≠ j.val := fun h => hij (Fin.ext h)
        rw [if_neg (by omega), if_neg (by simp [hij])]
    · have : t ≠ u := fun h => hfg (tableNumber?_inj ht (h ▸ hu))
      rw [if_neg (by omega), if_neg (by simp [hfg])]

theorem read?_fillTable? {a b : Arena} {f : Frame} {e : Entry} (h : a.fillTable? f e = some b)
    (g : Frame) (j : TableIndex) : b.read? g j = if f = g then some e else a.read? g j := by
  obtain ⟨t, ht, hb⟩ := Option.map_eq_some_iff.mp h
  have hsize := a.size_entries
  have hlt := tableNumber?_lt ht
  have hj := j.isLt
  have hentries : b.entries = fill a.entries e (t * 512) 512 := by rw [← hb]
  have hnumber : b.tableNumber? g = a.tableNumber? g :=
    tableNumber?_congr (by rw [← hb]) (by rw [← hb])
  rw [read?, read?, hnumber, hentries]
  cases hu : a.tableNumber? g with
  | none =>
    rw [if_neg]
    · simp only [Option.map_none]
    · rintro rfl; simp [ht] at hu
  | some u =>
    simp only [Option.map_some, getElem?_fill]
    by_cases hfg : f = g
    · subst hfg
      obtain rfl : t = u := by simpa [ht] using hu
      rw [if_pos (by omega), if_pos rfl, Option.getD_some]
    · have : t ≠ u := fun h => hfg (tableNumber?_inj ht (h ▸ hu))
      rw [if_neg (by omega), if_neg hfg]

/-- A frame from the arena's allocator. -/
def allocateFrame : EStateM Halt Arena (Option Frame) := fun a =>
  match FrameAllocator.allocateFrame a.frames with
  | .ok f frames => .ok f { a with frames }
  | .error stop frames => .error (.panic stop) { a with frames }

instance : TableMemory Arena where
  root := Arena.root
  holds a f := .ok (a.tableNumber? f).isSome
  read a f i := .ok (a.read? f i)
  write a f i e := .ok (a.write? f i e)
  clear a f := .ok (a.fillTable? f .absent)
  invalidate a v := { a with invalidated := v :: a.invalidated }
  allocateFrame := allocateFrame

end Arena

end KernelCore
