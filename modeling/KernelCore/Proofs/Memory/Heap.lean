import KernelCore.Proofs.Memory.Reflections
import KernelCore.Proofs.Paging.Mappings

/-!
# Pages of the heap

The heap is backed page by page, with a frame for the page and then, if they are missing, frames for
its tables. All pages of the heap have the same last table, so tables are made with the first page
only. A page that is backed keeps its leaf while the next ones are, and its frame holds data from
then on. If there are too few frames for all of it, those that were taken stay taken, and no page
outside the heap is any the wiser.
-/

namespace KernelCore

namespace Heap

open Arena Machine Paging

/-- First address of a page of the heap. -/
def page (i : ℕ) : VirtAddr := VirtAddr.truncate (start + i * 4096)

/-- The address lies in the heap. -/
def Covers (v : VirtAddr) : Prop := start ≤ v.val ∧ v.val < start + size

/-- Numbers of the `n` pages from number `i` of the heap on. -/
def pagesFrom (i n : ℕ) : Set ℕ := Set.Ico (start / 4096 + i) (start / 4096 + i + n)

variable {i n : ℕ} {v : VirtAddr}

theorem val_page (hi : i < 256) : (page i).val = start + i * 4096 := by
  have hstart : start = 0xffffffff00000000 := rfl
  rw [page, VirtAddr.truncate, dif_neg (by omega)]
  simp only
  omega

theorem number_page (hi : i < 256) : (page i).page = start / 4096 + i := by
  rw [VirtAddr.page, val_page hi, start]
  omega

/-- All pages of the heap have the same last table. -/
theorem way_page (hi : i < 256) : (page i).way = (page 0).way := by
  simp only [VirtAddr.way, LinkLevel.index, VirtAddr.index, LinkLevel.span, val_page hi,
    val_page (i := 0) (by decide), start, List.cons.injEq, Fin.mk.injEq, and_true]
  omega

theorem covers_iff : Covers v ↔ v.page ∈ pagesFrom 0 256 := by
  simp only [Covers, VirtAddr.page, pagesFrom, Set.mem_Ico, start, size]
  omega

theorem page_mem_pagesFrom (hi : i < 256) (hn : 0 < n) : (page i).page ∈ pagesFrom i n := by
  rw [number_page hi, pagesFrom, Set.mem_Ico]
  omega

theorem singleton_subset_pagesFrom (hi : i < 256) (hn : 0 < n) :
    {(page i).page} ⊆ pagesFrom i n :=
  Set.singleton_subset_iff.mpr (page_mem_pagesFrom hi hn)

theorem pagesFrom_succ_subset (i n : ℕ) : pagesFrom (i + 1) n ⊆ pagesFrom i (n + 1) :=
  Set.Ico_subset_Ico (by omega) (by omega)

/-! ## One page -/

variable {a b c : Arena} {f : Frame} {fs : List Frame} {m : Machine} {map : DirectMap} {ram : Set ℕ}
  {within : Frame → Bool}

/-- The `n` pages from number `i` on can be backed, as far as there are frames. -/
structure Awaits (a : Arena) (i n : ℕ) : Prop where
  passable : a.Passable (page 0).way
  vacant : ∀ k, i ≤ k → k < i + n → presentLeaf? a (page k) = none
  nonzero : ∀ f, a.frames.isFree f → f.base.val ≠ 0

/-- Nothing but frames runs out. -/
def Exhausts (e : MemoryError) : Prop :=
  e = .outOfFrames ∨ ∃ level, e = .paging (.noMemory level)

theorem mapPages_of_none {m' : Machine} (h : Kernel.allocateFrame m = .ok none m') :
    mapPages (n + 1) i m = .ok (.error .outOfFrames) m' := by
  rw [mapPages, Kernel.lift_bind_ok h]
  rfl

theorem mapPages_of_some {m' : Machine} (h : Kernel.allocateFrame m = .ok (some f) m') :
    mapPages (n + 1) i m =
      (Kernel.mapPage (page i) f.base attributes >>= fun _ => mapPages n (i + 1)) m' := by
  rw [mapPages, Kernel.lift_bind_ok h]
  rfl

/-- The first page that is left is backed, or frames run out. -/
theorem backPage_cases (h : Shows within map ram m a) (hi : i < 256)
    (hready : Awaits a i (n + 1)) :
    (1 + a.missing (page 0).way ≤ a.frames.free ∧
      ∃ f m' c pt, mapPages (n + 1) i m = mapPages n (i + 1) m' ∧ Shows within map ram m' c ∧
        Progress {(page i).page} a c ∧ a.frames.isFree f ∧ c.HoldsData f ∧
        c.tableAt? (page 0).way = some pt ∧
        presentLeaf? c (page i) = some (.leaf f.base attributes) ∧
        c.frames.free + (1 + a.missing (page 0).way) = a.frames.free) ∨
      (a.frames.free < 1 + a.missing (page 0).way ∧
        ∃ e m' c, mapPages (n + 1) i m = .ok (.error e) m' ∧ Shows within map ram m' c ∧
          Progress {(page i).page} a c ∧ Exhausts e) := by
  rcases FrameAllocator.allocateFrame_handed h.enclosed.sound with
    ⟨hnone, hzero⟩ | ⟨f, frames, hsome, hhanded⟩
  · obtain ⟨m', hallocate, hm'⟩ := h.allocateFrame_eq_ok hnone h.enclosed
    exact .inr ⟨by omega, _, m', a, mapPages_of_none hallocate, hm', .refl _ a, .inl rfl⟩
  · have hgranted := h.enclosed.handed hhanded
    have hprogress := h.enclosed.progress_of_handed {(page i).page} hhanded
    obtain ⟨m₁, hallocate, hm₁⟩ := h.allocateFrame_eq_ok hsome hgranted
    rw [mapPages_of_some hallocate]
    have hcount : ({ a with frames } : Arena).frames.free + 1 = a.frames.free := hhanded.count
    have hv : (page i).isNull = false := by simp [VirtAddr.isNull, val_page hi, start]
    have hpass : ({ a with frames } : Arena).Passable (page i).way := by
      rw [way_page hi]
      exact hready.passable.with_frames (page 0).length_way.le frames
    have hvacant : presentLeaf? ({ a with frames } : Arena) (page i) = none := by
      rw [(h.enclosed.progress_of_handed ∅ hhanded).leaves _ (Set.notMem_empty _)]
      exact hready.vacant i le_rfl (by omega)
    have hcases := hgranted.map_cases hv (hready.nonzero f hhanded.wasFree) attributes hpass hvacant
      (Set.mem_singleton _)
    rw [way_page hi, missing_with_frames a frames (page 0).length_way.le] at hcases
    rcases hcases with
      ⟨henough, pt, c, hmap, hc, hmapped, hpt, hleaf, hfree⟩ |
      ⟨hfew, level, c, hmap, hc, hmapped⟩
    · obtain ⟨m', hkernel, hm'⟩ := hm₁.mapPage_eq_ok hmap hc
      refine .inl ⟨by omega, f, m', c, pt, bind_ok hkernel, hm', hprogress.trans hmapped,
        hhanded.wasFree, hmapped.data (h.enclosed.holdsData hhanded), hpt, hleaf, by omega⟩
    · obtain ⟨m', hkernel, hm'⟩ := hm₁.mapPage_eq_ok hmap hc
      exact .inr ⟨by omega, _, m', c, bind_error hkernel, hm', hprogress.trans hmapped,
        .inr ⟨level, rfl⟩⟩

/-! ## Several pages -/

/-- The page after one that was backed can be backed as well. -/
theorem Awaits.next {pt : Frame} (h : Awaits a i (n + 1)) (hi : i + (n + 1) ≤ 256)
    (hprogress : Progress {(page i).page} a c) (hpt : c.tableAt? (page 0).way = some pt) :
    Awaits c (i + 1) n where
  passable := passable_of_table hpt
  vacant k hk hlt := by
    rw [hprogress.leaves (page k)]
    · exact h.vacant k (by omega) (by omega)
    · rw [Set.mem_singleton_iff, number_page (by omega), number_page (by omega)]
      omega
  nonzero f hf := h.nonzero f (hprogress.free hf)

/-- From `a` to `b` the pages from number `i` on were backed with the frames `fs`. -/
structure Backs (a b : Arena) (i : ℕ) (fs : List Frame) : Prop where
  progress : Progress (pagesFrom i fs.length) a b
  nodup : fs.Nodup
  wasFree : ∀ f ∈ fs, a.frames.isFree f
  data : ∀ f ∈ fs, b.HoldsData f
  leaf : ∀ k f, fs[k]? = some f → presentLeaf? b (page (i + k)) = some (.leaf f.base attributes)

theorem Backs.nil (a : Arena) (i : ℕ) : Backs a a i [] :=
  ⟨.refl _ a, List.nodup_nil, by simp, by simp, by simp⟩

theorem Backs.cons (hi : i < 256) (hprogress : Progress {(page i).page} a c)
    (hfree : a.frames.isFree f) (hdata : c.HoldsData f)
    (hleaf : presentLeaf? c (page i) = some (.leaf f.base attributes))
    (hrest : Backs c b (i + 1) fs) : Backs a b i (f :: fs) where
  progress := (hprogress.mono (singleton_subset_pagesFrom hi (Nat.succ_pos _))).trans
    (hrest.progress.mono (pagesFrom_succ_subset i fs.length))
  nodup := List.nodup_cons.mpr ⟨fun hmem => hdata.1 (hrest.wasFree f hmem), hrest.nodup⟩
  wasFree g hg := by
    rcases List.mem_cons.mp hg with rfl | hg
    · exact hfree
    · exact hprogress.free (hrest.wasFree g hg)
  data g hg := by
    rcases List.mem_cons.mp hg with rfl | hg
    · exact hrest.progress.data hdata
    · exact hrest.data g hg
  leaf k g hk := by
    cases k with
    | zero =>
      obtain rfl := Option.some.inj hk
      rw [Nat.add_zero, hrest.progress.leaves (page i)]
      · exact hleaf
      · rw [number_page hi, pagesFrom, Set.mem_Ico]
        omega
    | succ k =>
      rw [← Nat.add_assoc, Nat.add_right_comm]
      exact hrest.leaf k g hk

/-- How many frames it takes to back `n` pages of the heap. -/
def demand (a : Arena) (n : ℕ) : ℕ := if n = 0 then 0 else n + a.missing (page 0).way

theorem demand_of_table {pt : Frame} (hpt : a.tableAt? (page 0).way = some pt) (n : ℕ) :
    demand a n = n := by
  rw [demand, missing_eq_zero hpt]
  split <;> omega

/-- All pages are backed if there are enough frames, and else frames run out. -/
theorem mapPages_cases (h : Shows within map ram m a) (hi : i + n ≤ 256) (hready : Awaits a i n) :
    (demand a n ≤ a.frames.free ∧
      ∃ fs m' b, mapPages n i m = .ok (.ok ()) m' ∧ Shows within map ram m' b ∧ fs.length = n ∧
        Backs a b i fs ∧ b.frames.free + demand a n = a.frames.free) ∨
      (a.frames.free < demand a n ∧
        ∃ e m' b, mapPages n i m = .ok (.error e) m' ∧ Shows within map ram m' b ∧
          Progress (pagesFrom i n) a b ∧ Exhausts e) := by
  induction n generalizing i m a with
  | zero => exact .inl ⟨Nat.zero_le _, [], m, a, rfl, h, rfl, .nil a i, rfl⟩
  | succ n ih =>
    have hdemand : demand a (n + 1) = n + (1 + a.missing (page 0).way) := by
      rw [demand, if_neg (Nat.succ_ne_zero n)]
      omega
    have hpage := singleton_subset_pagesFrom (i := i) (n := n + 1) (by omega) (Nat.succ_pos n)
    rw [hdemand]
    rcases backPage_cases (n := n) h (by omega) hready with
      ⟨henough, f, m₁, c, pt, hstep, hm₁, hprogress, hfree, hdata, hpt, hleaf, hcount⟩ |
      ⟨hfew, e, m', c, herror, hm', hprogress, he⟩
    · rw [hstep]
      have hrest := ih hm₁ (i := i + 1) (by omega) (hready.next hi hprogress hpt)
      rw [demand_of_table hpt] at hrest
      rcases hrest with ⟨hmany, fs, m', b, hrun, hm', hlength, hbacks, hleft⟩ |
        ⟨hfew, e, m', b, herror, hm', hlater, he⟩
      · exact .inl ⟨by omega, f :: fs, m', b, hrun, hm', by rw [List.length_cons, hlength],
          .cons (by omega) hprogress hfree hdata hleaf hbacks, by omega⟩
      · exact .inr ⟨by omega, e, m', b, herror, hm',
          (hprogress.mono hpage).trans (hlater.mono (pagesFrom_succ_subset i n)), he⟩
    · exact .inr ⟨by omega, e, m', c, herror, hm', hprogress.mono hpage, he⟩

end Heap

end KernelCore
