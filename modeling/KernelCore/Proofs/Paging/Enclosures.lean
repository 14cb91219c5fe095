import KernelCore.Proofs.Paging.Translations

/-!
# Tables and data in one set of frames

Tables that form a tree, and the frames that are still free, lie in a set of frames. Handing out a
frame, linking a table and writing a leaf keep it so. A frame that is handed out and not linked
holds data, and the mapper never makes a table of it. Nothing but links is asked of the entries on
the way to the page that is mapped; what else the upper tables hold does not matter.
-/

namespace KernelCore

open Paging

namespace Arena

variable {a b c : Arena} {f g pt : Frame} {i : TableIndex} {e : Entry} {v : VirtAddr}
  {way target indices : List TableIndex} {made : List Frame} {frames : FrameAllocator}
  {within : Frame → Bool} {pages pages' : Set ℕ}

/-- The tables form a tree, and all of its frames and all free frames belong to the set `within`,
each of which can hold a table. -/
structure Enclosed (within : Frame → Bool) (a : Arena) : Prop where
  tree : Tree a
  sound : a.frames.Sound
  reached : ∀ {f}, within f = true → a.reaches f
  table : ∀ {way f}, way.length ≤ 3 → a.tableAt? way = some f → within f = true
  free : ∀ {f}, a.frames.isFree f → within f = true

/-- A frame that is out, and is no table. -/
def HoldsData (a : Arena) (f : Frame) : Prop :=
  ¬ a.frames.isFree f ∧ ∀ way, way.length ≤ 3 → a.tableAt? way ≠ some f

/-- From `a` to `b` frames were handed out, and no leaf was changed but those of some pages. -/
structure Progress (pages : Set ℕ) (a b : Arena) : Prop where
  region : b.frames.region = a.frames.region
  free : ∀ {f}, b.frames.isFree f → a.frames.isFree f
  data : ∀ {f}, a.HoldsData f → b.HoldsData f
  leaves : ∀ w : VirtAddr, w.page ∉ pages → presentLeaf? b w = presentLeaf? a w

theorem Progress.refl (pages : Set ℕ) (a : Arena) : Progress pages a a :=
  ⟨rfl, fun h => h, fun h => h, fun _ _ => rfl⟩

theorem Progress.mono (h : Progress pages a b) (hsub : pages ⊆ pages') : Progress pages' a b :=
  ⟨h.region, h.free, h.data, fun w hw => h.leaves w fun hmem => hw (hsub hmem)⟩

theorem Progress.trans (h₁ : Progress pages a b) (h₂ : Progress pages b c) :
    Progress pages a c :=
  ⟨h₂.region.trans h₁.region, fun h => h₁.free (h₂.free h), fun h => h₂.data (h₁.data h),
    fun w hw => (h₂.leaves w hw).trans (h₁.leaves w hw)⟩

/-! ## Frames that are handed out -/

theorem tableAt?_with_frames (a : Arena) (frames : FrameAllocator) (hway : way.length ≤ 3) :
    ({ a with frames } : Arena).tableAt? way = a.tableAt? way :=
  tableAt?_congr rfl (fun _ _ _ _ _ => rfl) hway

theorem Enclosed.handed (h : Enclosed within a) (hhanded : a.frames.Handed frames g) :
    Enclosed within { a with frames } where
  tree := (presentLeaf?_of_handed (b := { a with frames }) h.tree ⟨rfl, rfl, rfl⟩ hhanded
    fun _ _ _ => rfl).1
  sound := hhanded.sound
  reached := h.reached
  table hway ht := h.table hway ((tableAt?_with_frames a frames hway).symm.trans ht)
  free hf := h.free (hhanded.isFree _ hf).1

theorem Enclosed.progress_of_handed (h : Enclosed within a) (pages : Set ℕ)
    (hhanded : a.frames.Handed frames g) : Progress pages a { a with frames } where
  region := hhanded.region
  free hf := (hhanded.isFree _ hf).1
  data hdata := by
    refine ⟨fun hf => hdata.1 (hhanded.isFree _ hf).1, fun way hway => ?_⟩
    rw [tableAt?_with_frames a frames hway]
    exact hdata.2 way hway
  leaves w _ := (presentLeaf?_of_handed (b := { a with frames }) h.tree ⟨rfl, rfl, rfl⟩ hhanded
    fun _ _ _ => rfl).2 w

/-- A frame that was handed out holds data as long as it is not linked. -/
theorem Enclosed.holdsData (h : Enclosed within a) (hhanded : a.frames.Handed frames g) :
    ({ a with frames } : Arena).HoldsData g := by
  refine ⟨fun hf => (hhanded.isFree g hf).2 rfl, fun way hway hg => ?_⟩
  rw [tableAt?_with_frames a frames hway] at hg
  exact h.tree.reserved hway hg hhanded.wasFree

/-! ## Tables that are linked -/

theorem Enclosed.linked (h : Enclosed within a) (hlinked : Linked a b f i g)
    (hgap : Gap a way f i) : Enclosed within b where
  tree := hlinked.tree h.tree (h.reached (h.free hlinked.handed.wasFree)) hgap
  sound := hlinked.handed.sound
  reached hf := (hlinked.alike.reaches _).mpr (h.reached hf)
  table hway ht := by
    rcases hlinked.tableAt?_cases hgap hway ht with ⟨-, rfl⟩ | ⟨ht, -⟩
    · exact h.free hlinked.handed.wasFree
    · exact h.table hway ht
  free hf := h.free (hlinked.handed.isFree _ hf).1

theorem Linked.progress (hlinked : Linked a b f i g) (hgap : Gap a way f i) :
    Progress pages a b where
  region := hlinked.handed.region
  free hf := (hlinked.handed.isFree _ hf).1
  data hdata := by
    refine ⟨fun hf => hdata.1 (hlinked.handed.isFree _ hf).1, fun w hw ht => ?_⟩
    rcases hlinked.tableAt?_cases hgap hw ht with ⟨-, rfl⟩ | ⟨ht, -⟩
    · exact hdata.1 hlinked.handed.wasFree
    · exact hdata.2 w hw ht
  leaves w _ := presentLeaf?_of_linked hlinked hgap w

theorem Enclosed.chained (h : Enclosed within a) (pages : Set ℕ)
    (hchain : Chained a f indices made c) (hgap : ∀ i ∈ indices.head?, Gap a way f i)
    (hlength : indices.length + way.length ≤ 3) :
    Enclosed within c ∧ Progress pages a c := by
  refine hchain.induction_gap
    (P := fun a c => Enclosed within a → Enclosed within c ∧ Progress pages a c)
    (fun a h => ⟨h, .refl pages a⟩) ?_ hgap hlength h
  intro a b c way f i g hlinked _ hgap hrest h
  obtain ⟨hc, hprogress⟩ := hrest (h.linked hlinked hgap)
  exact ⟨hc, (hlinked.progress hgap).trans hprogress⟩

/-! ## Leaves that are written -/

theorem Enclosed.wrote (h : Enclosed within a) (hwrote : Wrote a b pt i e)
    (hpt : a.tableAt? way = some pt) (hway : way.length = 3) : Enclosed within b where
  tree := hwrote.tree h.tree hpt hway
  sound := by
    rw [hwrote.frames]
    exact h.sound
  reached hf := (hwrote.alike.reaches _).mpr (h.reached hf)
  table hw ht := h.table hw ((hwrote.tableAt? h.tree hpt hway hw).symm.trans ht)
  free hf := h.free (hwrote.frames ▸ hf)

theorem Enclosed.progress_of_wrote (h : Enclosed within a) (hwrote : Wrote a b pt v.leafIndex e)
    (hpt : a.tableAt? v.way = some pt) (hpage : v.page ∈ pages) : Progress pages a b where
  region := congrArg FrameAllocator.region hwrote.frames
  free hf := hwrote.frames ▸ hf
  data hdata := by
    refine ⟨fun hf => hdata.1 (hwrote.frames ▸ hf), fun w hw => ?_⟩
    rw [hwrote.tableAt? h.tree hpt v.length_way hw]
    exact hdata.2 w hw
  leaves w hw := presentLeaf?_of_wrote h.tree hwrote hpt fun heq => hw (heq ▸ hpage)

/-! ## Ways without huge entries -/

/-- No entry on a way stands for a large page. -/
def Passable (a : Arena) (target : List TableIndex) : Prop :=
  ∀ i w t, (i :: w) <:+ target → a.tableAt? w = some t → (a.cell t i).isPresent = true →
    (a.cell t i).isHuge = false

/-- Where there is a table at the end of a way, there is one at the end of each part of it. -/
theorem exists_tableAt?_of_suffix {w : List TableIndex} (hf : a.tableAt? way = some f)
    (hw : w <:+ way) : ∃ t, a.tableAt? w = some t := by
  induction way generalizing f with
  | nil => exact ⟨f, (List.suffix_nil.mp hw) ▸ hf⟩
  | cons i way ih =>
    rcases List.suffix_cons_iff.mp hw with rfl | hw
    · exact ⟨f, hf⟩
    · obtain ⟨t, ht, -⟩ := Option.bind_eq_some_iff.mp hf
      exact ih ht hw

theorem passable_of_table (hf : a.tableAt? target = some f) : Passable a target := by
  intro i w t hsuffix ht _
  obtain ⟨g, hg⟩ := exists_tableAt?_of_suffix hf hsuffix
  rw [tableAt?_cons ht] at hg
  exact (child?_eq_some_iff.mp hg).2.1

theorem Passable.with_frames (h : Passable a target) (hlength : target.length ≤ 3)
    (frames : FrameAllocator) : Passable { a with frames } target := by
  intro i w t hsuffix ht
  have hle := hsuffix.length_le
  rw [List.length_cons] at hle
  rw [tableAt?_with_frames a frames (by omega)] at ht
  exact h i w t hsuffix ht

theorem missing_with_frames (a : Arena) (frames : FrameAllocator) (hway : way.length ≤ 3) :
    ({ a with frames } : Arena).missing way = a.missing way := by
  induction way with
  | nil => rfl
  | cons i way ih =>
    rw [missing, missing, tableAt?_with_frames a frames hway, ih (by simp at hway; omega)]

/-! ## Mapping a page -/

/-- All tables of a page are made, or there are too few frames for them. -/
theorem Enclosed.makeTables_cases (h : Enclosed within a) (v : VirtAddr) (pages : Set ℕ)
    (hpass : Passable a v.way) (hf : a.tableAt? [] = some f) :
    (a.missing v.way ≤ a.frames.free ∧
      ∃ pt b, makeTables v [.pml4, .pdpt, .pd] f a = .ok (.ok pt) b ∧ Enclosed within b ∧
        Progress pages a b ∧ b.tableAt? v.way = some pt ∧
        b.frames.free + a.missing v.way = a.frames.free) ∨
      (a.frames.free < a.missing v.way ∧
        ∃ level b, makeTables v [.pml4, .pdpt, .pd] f a = .ok (.error (.noMemory level)) b ∧
          Enclosed within b ∧ Progress pages a b) := by
  have hreserved : a.Reserved := fun _ _ => h.tree.reserved
  rcases Paging.makeTables_cases v [.pml4, .pdpt, .pd] h.sound hreserved hf (by simp) with
    ⟨pt, hrun, hpt⟩ | ⟨level, w, t, i, -, hw, ht, hsuffix, hpresent, hchildless⟩ |
    ⟨i, rest, w, t, r, c, hrun, hbreak, hmade⟩
  · have hnone : a.missing v.way = 0 := missing_eq_zero hpt
    rw [hnone]
    exact .inl ⟨Nat.zero_le _, pt, a, hrun, h, .refl pages a, hpt, rfl⟩
  · have hset := hpresent (h.tree.reached hw.le ht)
    have hchild := child?_eq_some_iff.mpr ⟨hset, hpass i w t hsuffix ht hset, rfl⟩
    rw [hchildless] at hchild
    contradiction
  · have hlength : (i :: rest).length + w.length ≤ 3 := hbreak.length ▸ v.length_way.le
    have hgap := hbreak.gap hreserved v.length_way.le fun hw ht =>
      h.tree.unique hw (by omega) ht hbreak.table
    have hmissing : a.missing v.way = (i :: rest).length := hbreak.missing_eq
    have hused := hreserved w t (by omega) hbreak.table
    cases hmade with
    | @all _ pt made chain length last _ _ =>
      obtain ⟨hc, hprogress⟩ := h.chained pages chain hgap.first hlength
      have hcount := (chain.appended hused).count
      have hend := chain.tableAt? hgap.table hgap.first hlength
      rw [length, List.take_length, last, Option.getD_some] at hend
      have hpt : c.tableAt? v.way = some pt := (congrArg c.tableAt? hbreak.split).trans hend
      exact .inl ⟨by omega, pt, c, hrun, hc, hprogress, hpt, by omega⟩
    | @short _ level made chain length exhausted =>
      obtain ⟨hc, hprogress⟩ := h.chained pages chain hgap.first hlength
      have hcount := (chain.appended hused).count
      exact .inr ⟨by omega, level, c, hrun, hc, hprogress⟩
    | lost chain handed unreached =>
      obtain ⟨hc, -⟩ := h.chained pages chain hgap.first hlength
      exact absurd (hc.reached (hc.free handed.wasFree)) unreached

/-- A page that has no leaf is mapped, unless there are too few frames for its tables. -/
theorem Enclosed.map_cases {p : PhysAddr} (h : Enclosed within a) (hv : v.isNull = false)
    (hp : p.val ≠ 0) (attributes : UInt64) (hpass : Passable a v.way)
    (hvacant : presentLeaf? a v = none) (hpage : v.page ∈ pages) :
    (a.missing v.way ≤ a.frames.free ∧
      ∃ pt b, map v p attributes a = .ok (.ok ()) b ∧ Enclosed within b ∧ Progress pages a b ∧
        b.tableAt? v.way = some pt ∧ presentLeaf? b v = some (.leaf p attributes) ∧
        b.frames.free + a.missing v.way = a.frames.free) ∨
      (a.frames.free < a.missing v.way ∧
        ∃ level b, map v p attributes a = .ok (.error (.noMemory level)) b ∧
          Enclosed within b ∧ Progress pages a b) := by
  obtain ⟨f, hf⟩ := h.tree.rooted
  have hlook : look rootTable a = .ok (.ok f) a := by
    simp only [look, rootTable_eq_ok hf (h.tree.root_reached hf)]
  rcases h.makeTables_cases v ∅ hpass hf with
    ⟨henough, pt, b, hrun, hb, hprogress, hpt, hcount⟩ | ⟨hfew, level, b, hrun, hb, hprogress⟩
  · obtain ⟨-, hleaf⟩ := map_of_made attributes hv hp hlook hrun
    have hblank : presentLeaf? b v = none :=
      (hprogress.leaves v (Set.notMem_empty _)).trans hvacant
    rw [presentLeaf?_eq, hpt, Option.bind_some, ite_eq_right_iff] at hblank
    rcases hleaf pt rfl with ⟨hunreached, -⟩ | ⟨hpresent, -⟩ | ⟨-, c, hmap, hwrote, -⟩
    · exact absurd (hb.tree.reached v.length_way.le hpt) hunreached
    · exact absurd (hblank hpresent) (by simp)
    · have hc := hb.wrote hwrote hpt v.length_way
      have hpt' := (hwrote.tableAt? hb.tree hpt v.length_way v.length_way.le).trans hpt
      refine .inl ⟨henough, pt, c, hmap, hc, ?_, hpt', ?_, ?_⟩
      · exact (hprogress.mono (Set.empty_subset _)).trans (hb.progress_of_wrote hwrote hpt hpage)
      · have hcell : c.cell pt v.leafIndex = .leaf p attributes := by
          rw [hwrote.cell, if_pos ⟨rfl, rfl⟩]
        rw [presentLeaf?_eq, hpt', Option.bind_some, hcell,
          if_pos (Entry.isPresent_leaf p attributes)]
      · rw [hwrote.frames]
        exact hcount
  · obtain ⟨herror, -⟩ := map_of_made attributes hv hp hlook hrun
    exact .inr ⟨hfew, level, b, herror _ rfl, hb, hprogress.mono (Set.empty_subset _)⟩

end Arena

end KernelCore
