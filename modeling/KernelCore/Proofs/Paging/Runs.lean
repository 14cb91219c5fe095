import KernelCore.Proofs.Frames.Books
import KernelCore.Proofs.Paging.Making

/-!
# Runs of the page mapper

Pages are mapped and unmapped below a root that started out zeroed, while others use the same
allocator and the frames that they got from it. They keep away from the tables, and that is all that
is asked of them. Every action of such a run comes to an end and leaves the arena well formed.
-/

namespace KernelCore

namespace Arena

variable {a b : Arena}

/-- Whether a frame holds a table that is linked below the root, or the root. -/
def isTable (a : Arena) (f : Frame) : Prop := ∃ way, way.length ≤ 3 ∧ a.tableAt? way = some f

end Arena

namespace Paging

variable {a b c : Arena} {f r : Frame}

/-- An action in a run. -/
inductive Action
  | map (v : VirtAddr) (p : PhysAddr) (attributes : UInt64)
  | unmap (v : VirtAddr)
  /-- A request of somebody else to the allocator. -/
  | serve (r : FrameAllocator.Request)
  /-- A word that somebody else writes. -/
  | scribble (f : Frame) (i : TableIndex) (e : Entry)

namespace Action

def perform : Action → Walk Arena Unit
  | .map v p attributes => Paging.map v p attributes
  | .unmap v => Paging.unmap v
  | .serve r => fun a =>
    match r.serve a.frames with
    | .ok _ frames => .ok (.ok ()) { a with frames }
    | .error stop frames => .error (.panic stop) { a with frames }
  | .scribble f i e => fun a => .ok (.ok ()) ((a.write? f i e).getD a)

/-- Nobody else gives the frame of a table back or writes to it. -/
def Permitted (a : Arena) : Action → Prop
  | .map _ _ _ | .unmap _ => True
  | .serve r => ∀ f, a.isTable f → f.base.val ∉ r.returned
  | .scribble f _ _ => ¬ a.isTable f

/-- Whether an action is one of the page mapper. -/
def ofMapper : Action → Bool
  | .map _ _ _ | .unmap _ => true
  | .serve _ | .scribble _ _ _ => false

end Action

/-- The actions of a run with their results, the latest first. -/
abbrev Trace := List (Action × Except PagingError Unit)

/-- `b` comes from `a` by the actions of a trace. -/
inductive Run (a : Arena) : Trace → Arena → Prop
  | start : Run a [] a
  | next {trace : Trace} {b c : Arena} {action : Action} {result : Except PagingError Unit}
      (run : Run a trace b) (permitted : action.Permitted b)
      (done : action.perform b = .ok result c) : Run a ((action, result) :: trace) c

/-- A run begins when an allocator, which may have served other requests before, hands out the frame
of the root, and the root is zeroed. All frames of the pool can hold tables. -/
def Begins (a : Arena) (requests : List FrameAllocator.Request) : Prop :=
  ∃ (region bitmapRegion : Extent) (buffer : Bitmap) (new used : FrameAllocator) (out : Set ℕ)
      (r : Frame),
    FrameAllocator.ofBuffer region bitmapRegion buffer = .ok new ∧ Addressable a new ∧
      FrameAllocator.serveAll requests new ∅ = .ok (used, out) ∧
      FrameAllocator.allocateFrame used = .ok (some r) a.frames ∧
      a.root = some r ∧ ∀ i, a.read? r i = some .absent

/-! ## The beginning -/

/-- A pool whose frames all hold tables ends within the physical addresses. -/
theorem Addressable.startOf_total_le {new : FrameAllocator} (h : Addressable a new) :
    new.startOf new.total ≤ 0x10000000000000 := by
  rcases Nat.eq_zero_or_pos new.total with hzero | hpos
  · have hlt := new.region.base.lt
    rw [hzero, FrameAllocator.startOf]
    omega
  · obtain ⟨f, hf, -⟩ := h (new.total - 1) (by omega)
    have hlt := f.lt
    simp only [FrameAllocator.startOf, Frame.base] at hf ⊢
    omega

/-- No way leads anywhere from a zeroed root. -/
theorem tableAt?_of_zeroed (hroot : a.root = some r) (hzero : ∀ i, a.read? r i = some .absent)
    {way : List TableIndex} (hway : way ≠ []) : a.tableAt? way = none := by
  induction way with
  | nil => contradiction
  | cons i way ih =>
    rw [Arena.tableAt?]
    rcases eq_or_ne way [] with rfl | hne
    · rw [Arena.tableAt?, hroot, Option.bind_some]
      refine Arena.child?_eq_none ?_
      simp [Arena.cell, hzero, Entry.isPresent_eq_bit]
    · rw [ih hne, Option.bind_none]

/-- A zeroed root outside the free frames is a tree of one table. -/
theorem tidy_of_zeroed (hroot : a.root = some r) (hzero : ∀ i, a.read? r i = some .absent)
    (hsound : a.frames.Sound) (hused : ¬ a.frames.isFree r) : Tidy a := by
  have hreach : a.reaches r := by
    by_contra hr
    simpa [Arena.read?_eq_none hr] using hzero 0
  have honly : ∀ {way : List TableIndex} {f}, a.tableAt? way = some f → way = [] ∧ f = r := by
    intro way f hf
    rcases eq_or_ne way [] with rfl | hne
    · exact ⟨rfl, Option.some.inj (hf.symm.trans hroot)⟩
    · simp [tableAt?_of_zeroed hroot hzero hne] at hf
  refine ⟨⟨⟨r, hroot⟩, ?_, ?_, ?_⟩, ?_, hsound⟩
  · intro way f _ hf
    rwa [(honly hf).2]
  · intro way way' f _ _ hf hf'
    rw [(honly hf).1, (honly hf').1]
  · intro way f _ hf
    rwa [(honly hf).2]
  · intro way f _ hf i
    rw [(honly hf).2]
    exact .inl (by simp [Arena.cell, hzero])

/-- Where a run begins, the root is the only table. -/
structure Beginning (a : Arena) (used : FrameAllocator) (r : Frame) : Prop where
  wellFormed : WellFormed a
  root : a.root = some r
  sound : used.Sound
  handed : used.Handed a.frames r
  only : ∀ {way : List TableIndex}, way ≠ [] → a.tableAt? way = none

theorem Begins.beginning {requests : List FrameAllocator.Request} (h : Begins a requests) :
    ∃ used r, Beginning a used r ∧ (requests = [] → used.lent = ∅) := by
  obtain ⟨region, bitmapRegion, buffer, new, used, out, r, hnew, hpool, hserve, hroot, hr, hzero⟩ :=
    h
  have hsound := FrameAllocator.sound_ofBuffer hnew hpool.startOf_total_le
  have hempty := FrameAllocator.lent_ofBuffer hnew
  obtain ⟨used', hrun, husound, huregion, -⟩ := FrameAllocator.serveAll_eq_ok hsound requests
  rw [hempty, hserve] at hrun
  obtain ⟨rfl, rfl⟩ := Prod.mk.inj (Except.ok.inj hrun)
  have hhanded : used.Handed a.frames r := by
    rcases FrameAllocator.allocateFrame_handed husound with ⟨hnone, -⟩ | ⟨f, frames, hsome, hhanded⟩
    · simp [hnone] at hroot
    · rw [hsome] at hroot
      obtain ⟨hf, rfl⟩ := EStateM.Result.ok.inj hroot
      rwa [← Option.some.inj hf]
  have hused : Addressable a used := hpool.congr (.refl a) huregion
  have htidy := tidy_of_zeroed hr hzero hhanded.sound fun hfree => (hhanded.isFree r hfree).2 rfl
  refine ⟨used, r, ⟨⟨htidy, hused.congr (.refl a) hhanded.region⟩, hr, husound, hhanded,
    tableAt?_of_zeroed hr hzero⟩, ?_⟩
  rintro rfl
  obtain ⟨rfl, -⟩ := Prod.mk.inj (Except.ok.inj hserve)
  exact hempty

/-- The allocator of a run is in a state that requests led to. -/
theorem Begins.reachable {requests : List FrameAllocator.Request} (h : Begins a requests) :
    ∃ pool place, FrameAllocator.Reachable pool place a.frames := by
  obtain ⟨region, bitmapRegion, buffer, new, used, out, r, hnew, -, hserve, hroot, -⟩ := h
  have hused : FrameAllocator.Reachable region bitmapRegion used :=
    ⟨buffer, new, requests, hnew, FrameAllocator.leftAll_of_serveAll hserve⟩
  have hleft : FrameAllocator.Request.frame.left used = a.frames := by
    simp only [FrameAllocator.Request.left, FrameAllocator.Request.serve, hroot]
  exact ⟨region, bitmapRegion, hleft ▸ hused.left .frame⟩

/-- Every new allocator of physical addresses can serve a run. -/
theorem exists_begins {region bitmapRegion : Extent} {buffer : Bitmap} {new : FrameAllocator}
    (hnew : FrameAllocator.ofBuffer region bitmapRegion buffer = .ok new)
    (hend : region.base.val + region.length.toNat ≤ 0x10000000000000) :
    ∃ a : Arena, Begins a [] ∧ a.frames.free + 1 = region.frameCount := by
  obtain ⟨hflaw, hregion, -, hfree, -⟩ := FrameAllocator.ofBuffer_eq_ok hnew
  have hsound := FrameAllocator.sound_ofBuffer hnew (new.startOf_total_le.trans (by rwa [hregion]))
  rcases FrameAllocator.allocateFrame_handed hsound with ⟨-, hzero⟩ | ⟨r, frames, hsome, hhanded⟩
  · exact absurd (hfree.symm.trans hzero) (FrameAllocator.flaw?_eq_none_iff.mp hflaw).2.1
  · have haddressable : Addressable (.zeroed new.region.base new.total (some r) frames) new := by
      intro i hi
      have hmemory := hsound.inMemory
      have haligned := hsound.aligned
      refine ⟨⟨new.startOf i / 4096, ?_⟩, ?_, ?_⟩
      · rw [FrameAllocator.startOf]; omega
      · simp only [Frame.base, FrameAllocator.startOf]; omega
      · rw [Arena.reaches_iff]
        simp only [Arena.zeroed, Frame.base, FrameAllocator.startOf]
        omega
    refine ⟨.zeroed new.region.base new.total (some r) frames, ⟨region, bitmapRegion, buffer, new,
      new, ∅, r, hnew, haddressable, rfl, hsome, rfl, fun i => ?_⟩, ?_⟩
    · rw [Arena.read?_eq_some (haddressable.reaches hhanded.wasFree), Arena.cell, Arena.read?]
      cases (Arena.zeroed new.region.base new.total (some r) frames).tableNumber? r with
      | none => rfl
      | some t =>
        simp only [Arena.zeroed, Array.getElem?_replicate, Option.map_some]
        split <;> rfl
    · rw [← hfree]
      exact hhanded.count

/-! ## Steps -/

/-- The tables of `a` are those of `b`, with the same entries. -/
structure Undisturbed (a b : Arena) : Prop where
  alike : Arena.Alike a b
  cell : ∀ {f}, a.isTable f → ∀ i, b.cell f i = a.cell f i
  sound : b.frames.Sound
  region : b.frames.region = a.frames.region
  reserved : ∀ {f}, a.isTable f → ¬ b.frames.isFree f

theorem Undisturbed.tableAt? (h : Undisturbed a b) {way : List TableIndex} (hway : way.length ≤ 3) :
    b.tableAt? way = a.tableAt? way :=
  Arena.tableAt?_congr h.alike.root
    (fun w _ hw hf i => Arena.child?_congr (h.cell ⟨w, hw.le, hf⟩ i)) hway

theorem Undisturbed.tidy (h : Undisturbed a b) (ha : Tidy a) : Tidy b where
  tree := ha.tree.congr h.alike (fun w _ hw hf i => Arena.child?_congr (h.cell ⟨w, hw.le, hf⟩ i))
    fun w _ hw hf => h.reserved ⟨w, hw, hf⟩
  plain w f hw hf i := by
    rw [h.tableAt? hw.le] at hf
    rw [h.cell ⟨w, hw.le, hf⟩ i]
    exact ha.plain w f hw hf i
  sound := h.sound

/-- A request of somebody else leaves the tables alone, as long as no table is given back. -/
theorem Tidy.serve (h : Tidy a) {r : FrameAllocator.Request}
    (hpermitted : (Action.serve r).Permitted a) :
    ∃ b, (Action.serve r).perform a = .ok (.ok ()) b ∧ Undisturbed a b := by
  obtain ⟨granted, frames, hserve, hsound, -, hlent, hregion, -⟩ :=
    FrameAllocator.serve_eq_ok h.sound r
  refine ⟨{ a with frames }, by simp only [Action.perform, hserve],
    ⟨⟨rfl, rfl, rfl⟩, fun _ _ => rfl, hsound, hregion, ?_⟩⟩
  rintro f hf hfree
  obtain ⟨way, hway, htable⟩ := hf
  refine h.tree.reserved hway htable ?_
  rw [FrameAllocator.isFree_iff] at hfree ⊢
  obtain ⟨⟨i, hi, hstart⟩, hout⟩ := hfree
  rw [FrameAllocator.total, hregion] at hi
  rw [FrameAllocator.startOf, hregion] at hstart
  refine ⟨⟨i, hi, hstart⟩, fun hlentBefore => hout ?_⟩
  rw [hlent]
  exact .inl ⟨hlentBefore, hpermitted f ⟨way, hway, htable⟩⟩

/-- A word that somebody else writes is in no table. -/
theorem Tidy.scribble (h : Tidy a) {i : TableIndex} {e : Entry}
    (hpermitted : (Action.scribble f i e).Permitted a) :
    ∃ b, (Action.scribble f i e).perform a = .ok (.ok ()) b ∧ Undisturbed a b := by
  have hreserved : ∀ {g}, a.isTable g → ¬ a.frames.isFree g := by
    rintro g ⟨way, hway, hg⟩
    exact h.tree.reserved hway hg
  by_cases hf : a.reaches f
  · obtain ⟨b, hb, hwrote, -⟩ := Arena.write?_eq_some hf i e
    refine ⟨b, by simp only [Action.perform, hb, Option.getD_some], ⟨hwrote.alike, ?_, ?_, ?_, ?_⟩⟩
    · intro g hg j
      rw [hwrote.cell, if_neg]
      rintro ⟨rfl, -⟩
      exact hpermitted hg
    · rw [hwrote.frames]; exact h.sound
    · rw [hwrote.frames]
    · rw [hwrote.frames]; exact hreserved
  · have hnone := Arena.write?_eq_none hf i e
    exact ⟨a, by simp only [Action.perform, hnone, Option.getD_none],
      ⟨.refl a, fun _ _ => rfl, h.sound, rfl, hreserved⟩⟩

/-- What an action with a certain result does to an arena. Tables that are made on the way to a page
leave it as `Makes` says. -/
inductive Outcome (Makes : Arena → Arena → Prop) (a c : Arena) :
    Action → Except PagingError Unit → Prop
  /-- A page is mapped in a table that was there or was made. -/
  | mapped {b : Arena} {v : VirtAddr} {p : PhysAddr} {attributes : UInt64} {pt : Frame}
      (made : Makes a b) (table : b.tableAt? v.way = some pt)
      (vacant : (b.cell pt v.leafIndex).isPresent = false)
      (wrote : Arena.Wrote b c pt v.leafIndex (.leaf p attributes))
      (invalidated : c.invalidated = v :: a.invalidated) :
      Outcome Makes a c (.map v p attributes) (.ok ())
  /-- No page is mapped, though there may be more tables than before. -/
  | notMapped {v : VirtAddr} {p : PhysAddr} {attributes : UInt64} {e : PagingError}
      (made : Makes a c) : Outcome Makes a c (.map v p attributes) (.error e)
  | unmapped {v : VirtAddr} {pt : Frame} (table : a.tableAt? v.way = some pt)
      (present : (a.cell pt v.leafIndex).isPresent = true)
      (wrote : Arena.Wrote a c pt v.leafIndex (a.cell pt v.leafIndex).withdrawn)
      (invalidated : c.invalidated = v :: a.invalidated) : Outcome Makes a c (.unmap v) (.ok ())
  | notUnmapped {v : VirtAddr} {e : PagingError} (same : c = a) :
      Outcome Makes a c (.unmap v) (.error e)
  | foreign {action : Action} (foreign : action.ofMapper = false) (undisturbed : Undisturbed a c) :
      Outcome Makes a c action (.ok ())

section Outcomes

variable {Makes : Arena → Arena → Prop} {action : Action} {result : Except PagingError Unit}

theorem Outcome.expanded (h : Outcome Arena.Grown a c action result) :
    Outcome Arena.Expanded a c action result := by
  cases h with
  | mapped made table vacant wrote invalidated =>
    exact .mapped made.toExpanded table vacant wrote invalidated
  | notMapped made => exact .notMapped made.toExpanded
  | unmapped table present wrote invalidated => exact .unmapped table present wrote invalidated
  | notUnmapped same => exact .notUnmapped same
  | foreign foreign undisturbed => exact .foreign foreign undisturbed

/-- Every action that is permitted comes to an end, with a result that says what it did, if mapping
does. -/
theorem Tidy.perform_of_map (h : Tidy a) (hpermitted : action.Permitted a) (hrefl : Makes a a)
    (hmap : ∀ {v p} attributes, v.isNull = false → p.val ≠ 0 → ∃ result c,
      Paging.map v p attributes a = .ok result c ∧ Outcome Makes a c (.map v p attributes) result) :
    ∃ result c, action.perform a = .ok result c ∧ Outcome Makes a c action result := by
  cases action with
  | map v p attributes =>
    by_cases hnull : v.isNull = true ∨ p.val = 0
    · exact ⟨_, a, map_of_null hnull, .notMapped hrefl⟩
    · rw [not_or, Bool.not_eq_true] at hnull
      exact hmap attributes hnull.1 hnull.2
  | unmap v =>
    cases hnull : v.isNull with
    | true => exact ⟨_, a, unmap_of_null hnull, .notUnmapped rfl⟩
    | false =>
      rcases unmap_cases h.tree hnull with ⟨-, level, herror⟩ | ⟨pt, hpt, ⟨-, herror⟩ |
        ⟨hpresent, b, hok, hwrote, hdropped⟩⟩
      · exact ⟨_, a, herror, .notUnmapped rfl⟩
      · exact ⟨_, a, herror, .notUnmapped rfl⟩
      · exact ⟨_, b, hok, .unmapped hpt hpresent hwrote hdropped⟩
  | serve r =>
    obtain ⟨b, hb, hsame⟩ := h.serve hpermitted
    exact ⟨_, b, hb, .foreign rfl hsame⟩
  | scribble f i e =>
    obtain ⟨b, hb, hsame⟩ := h.scribble hpermitted
    exact ⟨_, b, hb, .foreign rfl hsame⟩

theorem Tidy.perform (h : Tidy a) (hpermitted : action.Permitted a) :
    ∃ result c, action.perform a = .ok result c ∧ Outcome Arena.Expanded a c action result := by
  refine h.perform_of_map hpermitted (.refl h.tree h.plain h.sound) fun attributes hv hp => ?_
  obtain ⟨b, hexpanded, ⟨e, herror⟩ | ⟨pt, c, hpt, hvacant, hok, hwrote, hdropped⟩⟩ :=
    h.map hv hp attributes
  · exact ⟨_, b, herror, .notMapped hexpanded⟩
  · exact ⟨_, c, hok, .mapped hexpanded hpt hvacant hwrote hdropped⟩

theorem WellFormed.perform (h : WellFormed a) (hpermitted : action.Permitted a) :
    ∃ result c, action.perform a = .ok result c ∧ Outcome Arena.Grown a c action result := by
  refine h.perform_of_map hpermitted (.refl h.tree h.plain h.sound) fun attributes hv hp => ?_
  obtain ⟨b, hgrown, -, hcases⟩ := map_cases h hv hp attributes
  rcases hcases with ⟨level, herror, -⟩ | ⟨pt, hpt, -, ⟨-, herror⟩ |
    ⟨hvacant, c, hok, hwrote, hdropped⟩⟩
  · exact ⟨_, b, herror, .notMapped hgrown⟩
  · exact ⟨_, b, herror, .notMapped hgrown⟩
  · exact ⟨_, c, hok, .mapped hgrown hpt hvacant hwrote hdropped⟩

theorem Outcome.tidy (h : Outcome Arena.Expanded a c action result) (ha : Tidy a) : Tidy c := by
  have htidy : ∀ {b}, Arena.Expanded a b → Tidy b := fun h => ⟨h.tree, h.plain, h.sound⟩
  cases h with
  | mapped made table _ wrote _ => exact (htidy made).wrote wrote table (VirtAddr.length_way _)
  | notMapped made => exact htidy made
  | unmapped table _ wrote _ => exact ha.wrote wrote table (VirtAddr.length_way _)
  | notUnmapped same => exact same ▸ ha
  | foreign _ undisturbed => exact undisturbed.tidy ha

theorem Outcome.wellFormed (h : Outcome Arena.Grown a c action result) (ha : WellFormed a) :
    WellFormed c := by
  refine ⟨h.expanded.tidy ha.toTidy, ?_⟩
  have hgrown : ∀ {b}, Arena.Grown a b → Addressable b b.frames := fun h =>
    (ha.grown h).addressable
  cases h with
  | mapped made _ _ wrote _ => exact (hgrown made).congr wrote.alike (by rw [wrote.frames])
  | notMapped made => exact hgrown made
  | unmapped _ _ wrote _ => exact ha.addressable.congr wrote.alike (by rw [wrote.frames])
  | notUnmapped same => exact same ▸ ha.addressable
  | foreign _ undisturbed => exact ha.addressable.congr undisturbed.alike undisturbed.region

end Outcomes

/-! ## Runs -/

/-- What holds at the end of a run if it holds at the beginning, of an empty trace, and every action
that is permitted keeps it. -/
theorem Run.induction {trace : Trace} {J : Trace → Arena → Prop} (h : Run a trace b)
    (hstart : J [] a)
    (hnext : ∀ {trace b action}, J trace b → action.Permitted b →
      ∃ result c, action.perform b = .ok result c ∧ J ((action, result) :: trace) c) :
    J trace b := by
  induction h with
  | start => exact hstart
  | next run permitted done ih =>
    obtain ⟨result, c, hperform, hJ⟩ := hnext ih permitted
    rw [hperform] at done
    obtain ⟨rfl, rfl⟩ := EStateM.Result.ok.inj done
    exact hJ

/-- What an invariant of tidy arenas has to satisfy to hold in every run. -/
theorem Run.tidy_invariant {trace : Trace} {J : Trace → Arena → Prop} (h : Run a trace b)
    (ha : Tidy a) (hstart : J [] a)
    (hnext : ∀ {trace b c action result}, Tidy b → J trace b →
      Outcome Arena.Expanded b c action result → J ((action, result) :: trace) c) :
    Tidy b ∧ J trace b := by
  refine h.induction (J := fun trace b => Tidy b ∧ J trace b) ⟨ha, hstart⟩ ?_
  rintro trace b action ⟨hb, hJ⟩ hpermitted
  obtain ⟨result, c, hperform, houtcome⟩ := hb.perform hpermitted
  exact ⟨result, c, hperform, houtcome.tidy hb, hnext hb hJ houtcome⟩

/-- What an invariant of well-formed arenas has to satisfy to hold in every run. -/
theorem Run.invariant {trace : Trace} {J : Trace → Arena → Prop} (h : Run a trace b)
    (ha : WellFormed a) (hstart : J [] a)
    (hnext : ∀ {trace b c action result}, WellFormed b → J trace b →
      Outcome Arena.Grown b c action result → J ((action, result) :: trace) c) :
    WellFormed b ∧ J trace b := by
  refine h.induction (J := fun trace b => WellFormed b ∧ J trace b) ⟨ha, hstart⟩ ?_
  rintro trace b action ⟨hb, hJ⟩ hpermitted
  obtain ⟨result, c, hperform, houtcome⟩ := hb.perform hpermitted
  exact ⟨result, c, hperform, houtcome.wellFormed hb, hnext hb hJ houtcome⟩

end Paging

end KernelCore
