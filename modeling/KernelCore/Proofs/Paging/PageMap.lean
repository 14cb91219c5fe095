import KernelCore.Proofs.Paging.Runs

/-!
# Page map

What the tables of a run stand for: a partial map from pages to leaf words, which the successful
actions alone determine. Translation and leaf flags read this map, so how pages share tables, and
what failed attempts left behind, cannot be seen through them.
-/

namespace KernelCore

namespace Paging

/-- Leaf words by page. -/
abbrev PageMap := ℕ → Option UInt64

namespace PageMap

def empty : PageMap := fun _ => none

/-- The leaf of a page that is mapped: bits of the address, bits of the attributes, and the bits for
present and writable. -/
def store (M : PageMap) (v : VirtAddr) (p : PhysAddr) (attributes : UInt64) : PageMap :=
  Function.update M v.page (some
    ((UInt64.ofNat p.val &&& 0x0000fffffffff000) ||| (attributes &&& 0xfff0000000000fff) ||| 3))

/-- The leaf of a page that is unmapped loses bit 0. -/
def withdraw (M : PageMap) (v : VirtAddr) : PageMap :=
  Function.update M v.page ((M v.page).map (· &&& ~~~1))

/-- Only what succeeds changes the map. -/
def after (M : PageMap) : Action → Except PagingError Unit → PageMap
  | .map v p attributes, .ok _ => M.store v p attributes
  | .unmap v, .ok _ => M.withdraw v
  | _, _ => M

/-- The map at the end of a trace. -/
def ofTrace : Trace → PageMap
  | [] => empty
  | (action, result) :: trace => (ofTrace trace).after action result

/-- The physical address of a virtual one: bits 12 to 51 of a present leaf, and the offset. -/
def resolve (M : PageMap) (w : VirtAddr) : Option ℕ :=
  (M w.page).bind fun word =>
    if word &&& 1 = 0 then none else some ((word &&& 0x000ffffffffff000).toNat + w.pageOffset)

end PageMap

variable {a b c : Arena} {M N : PageMap}

/-- The last tables hold the map, and zeroes where it says nothing. -/
structure Agrees (a : Arena) (M : PageMap) : Prop where
  word : ∀ {w : VirtAddr} {pt : Frame}, a.tableAt? w.way = some pt →
    (a.cell pt w.leafIndex).bits = (M w.page).getD 0
  blank : ∀ {w : VirtAddr}, a.tableAt? w.way = none → M w.page = none

theorem Agrees.expanded (h : Agrees a M) (hexpanded : Arena.Expanded a b) : Agrees b M where
  word {w pt} hpt := by
    rcases Option.eq_none_or_eq_some (a.tableAt? w.way) with hnone | ⟨pt', hpt'⟩
    · rw [hexpanded.newLeaf w.length_way hnone hpt, h.blank hnone]
      rfl
    · have hsame := hexpanded.kept w.length_way.le hpt'
      obtain rfl := Option.some.inj (hsame.symm.trans hpt)
      rw [hexpanded.keptLeaf w.length_way hpt', h.word hpt']
  blank {w} hnone := h.blank (hexpanded.none_of_none w.length_way.le hnone)

theorem Agrees.undisturbed (h : Agrees a M) (hsame : Undisturbed a b) : Agrees b M where
  word {w pt} hpt := by
    rw [hsame.tableAt? w.length_way.le] at hpt
    rw [hsame.cell ⟨w.way, w.length_way.le, hpt⟩, h.word hpt]
  blank {w} hnone := h.blank ((hsame.tableAt? w.length_way.le).symm.trans hnone)

/-- Writing a leaf changes the map at its page and nowhere else. -/
theorem Agrees.wrote (h : Agrees a M) (htree : Arena.Tree a) {v : VirtAddr} {pt : Frame} {e : Entry}
    (hpt : a.tableAt? v.way = some pt) (hwrote : Arena.Wrote a b pt v.leafIndex e) :
    Agrees b (Function.update M v.page (some e.bits)) := by
  have htable : ∀ w : VirtAddr, b.tableAt? w.way = a.tableAt? w.way := fun w =>
    hwrote.tableAt? htree hpt v.length_way w.length_way.le
  constructor
  · intro w pt' hpt'
    rw [htable] at hpt'
    by_cases hpage : w.page = v.page
    · obtain ⟨hway, hindex⟩ := VirtAddr.page_eq_iff.mp hpage
      rw [hway] at hpt'
      rw [hwrote.cell, hpage, Function.update_self,
        if_pos ⟨Option.some.inj (hpt'.symm.trans hpt), hindex⟩]
      rfl
    · rw [hwrote.cell_of_page_ne htree hpt hpage hpt', Function.update_of_ne hpage, h.word hpt']
  · intro w hnone
    rw [htable] at hnone
    have hpage : w.page ≠ v.page := by
      intro hpage
      rw [(VirtAddr.page_eq_iff.mp hpage).1, hpt] at hnone
      contradiction
    rw [Function.update_of_ne hpage, h.blank hnone]

/-- A present leaf is in the map. -/
theorem Agrees.eq_some (h : Agrees a M) {v : VirtAddr} {pt : Frame}
    (hpt : a.tableAt? v.way = some pt) (hpresent : (a.cell pt v.leafIndex).isPresent = true) :
    M v.page = some (a.cell pt v.leafIndex).bits := by
  have hleaf := h.word hpt
  cases hM : M v.page with
  | none =>
    rw [hM, Option.getD_none] at hleaf
    simp [Entry.isPresent, hleaf] at hpresent
  | some word => rw [hleaf, hM, Option.getD_some]

/-- Every action changes the tables and the map alike. -/
theorem Agrees.outcome (h : Agrees a M) (ha : Tidy a) {action : Action}
    {result : Except PagingError Unit} (hdone : Outcome Arena.Expanded a c action result) :
    Agrees c (M.after action result) := by
  cases hdone with
  | mapped made table _ wrote _ => exact (h.expanded made).wrote made.tree table wrote
  | notMapped made => exact h.expanded made
  | unmapped table present wrote _ =>
    have hagrees := h.wrote ha.tree table wrote
    simp only [PageMap.after, PageMap.withdraw, h.eq_some table present, Option.map_some]
    exact hagrees
  | notUnmapped same => exact same ▸ h
  | foreign foreign undisturbed =>
    cases action with
    | map | unmap => contradiction
    | serve | scribble => exact h.undisturbed undisturbed

theorem Run.tidy_agrees {trace : Trace} (h : Run a trace b) (ha : Tidy a)
    (hstart : Agrees a PageMap.empty) : Tidy b ∧ Agrees b (PageMap.ofTrace trace) :=
  h.tidy_invariant (J := fun trace b => Agrees b (PageMap.ofTrace trace)) ha hstart
    fun hb hagrees hdone => hagrees.outcome hb hdone

theorem Run.agrees {trace : Trace} (h : Run a trace b) (ha : WellFormed a)
    (hstart : Agrees a PageMap.empty) : WellFormed b ∧ Agrees b (PageMap.ofTrace trace) :=
  ⟨(h.invariant (J := fun _ _ => True) ha trivial fun _ _ _ => trivial).1,
    (h.tidy_agrees ha.toTidy hstart).2⟩

/-! ## Reading the map -/

theorem toNat_addressBits (e : Entry) : (e.bits &&& 0x000ffffffffff000).toNat = e.address.val := by
  apply Nat.eq_of_testBit_eq
  intro i
  rw [Entry.testBit_address, UInt64.toNat_and, Nat.testBit_and, Entry.bit]
  by_cases hi : i < 64
  · have hmask : ∀ i : Fin 64, (0x000ffffffffff000 : UInt64).toNat.testBit i.val =
        decide (12 ≤ i.val ∧ i.val < 52) := by decide
    rw [hmask ⟨i, hi⟩, Bool.and_comm]
  · have hzero := e.bit_of_le (show 64 ≤ i by omega)
    rw [Entry.bit] at hzero
    rw [hzero, Bool.false_and, Bool.and_false]

theorem isPresent_eq_false_iff {e : Entry} : e.isPresent = false ↔ e.bits &&& 1 = 0 := by
  simp [Entry.isPresent]

/-- A page resolves by its leaf. -/
theorem Agrees.resolve_eq (h : Agrees a M) {w : VirtAddr} {pt : Frame}
    (hpt : a.tableAt? w.way = some pt) :
    M.resolve w = if (a.cell pt w.leafIndex).isPresent then
      some ((a.cell pt w.leafIndex).address.val + w.pageOffset) else none := by
  cases hpresent : (a.cell pt w.leafIndex).isPresent with
  | true =>
    have hset : ¬ (a.cell pt w.leafIndex).bits &&& 1 = 0 := by
      simp [← isPresent_eq_false_iff, hpresent]
    rw [PageMap.resolve, h.eq_some hpt hpresent, Option.bind_some, if_neg hset, if_pos rfl,
      toNat_addressBits]
  | false =>
    have hword := h.word hpt
    rw [isPresent_eq_false_iff, hword] at hpresent
    rw [PageMap.resolve, if_neg Bool.false_ne_true]
    cases hM : M w.page with
    | none => rw [Option.bind_none]
    | some word =>
      rw [hM, Option.getD_some] at hpresent
      rw [Option.bind_some, if_pos hpresent]

/-- A page without a table does not resolve. -/
theorem Agrees.resolve_eq_none (h : Agrees a M) {w : VirtAddr} (hnone : a.tableAt? w.way = none) :
    M.resolve w = none := by
  rw [PageMap.resolve, h.blank hnone, Option.bind_none]

theorem Agrees.translate (h : Agrees a M) (htree : Arena.Tree a) (w : VirtAddr) :
    ∃ p, translate a w = .ok p ∧ p.map (·.val) = M.resolve w := by
  rcases leaf_eq htree w with ⟨pt, hpt, hleaf⟩ | ⟨hnone, level, herror⟩
  · simp only [Paging.translate, hleaf]
    refine ⟨_, rfl, ?_⟩
    rw [h.resolve_eq hpt]
    split <;> rfl
  · exact ⟨none, by simp only [Paging.translate, herror], (h.resolve_eq_none hnone).symm⟩

theorem Agrees.leafFlags (h : Agrees a M) (htree : Arena.Tree a) (w : VirtAddr) :
    ∃ flags, leafFlags a w = .ok flags ∧
      (∀ word, M w.page = some word → flags = some (word &&& 0xfff0000000000fff)) ∧
      (M w.page = none → flags = none ∨ flags = some 0) := by
  rcases leaf_eq htree w with ⟨pt, hpt, hleaf⟩ | ⟨hnone, level, herror⟩
  · have hword := h.word hpt
    refine ⟨_, by simp only [Paging.leafFlags, hleaf]; rfl, fun word hM => ?_, fun hM => .inr ?_⟩
    · rw [hM, Option.getD_some] at hword
      rw [Entry.flags, hword]
    · rw [hM, Option.getD_none] at hword
      rw [Entry.flags, hword]
      rfl
  · refine ⟨none, by simp only [Paging.leafFlags, herror], fun word hM => ?_, fun _ => .inl rfl⟩
    rw [h.blank hnone] at hM
    contradiction

/-- Where there is no table but the root, nothing is mapped. -/
theorem agrees_empty (h : ∀ {way : List TableIndex}, way ≠ [] → a.tableAt? way = none) :
    Agrees a PageMap.empty where
  word {w pt} hpt := by
    rw [h (show w.way ≠ [] from List.cons_ne_nil _ _)] at hpt
    contradiction
  blank _ := rfl

theorem Beginning.agrees {used : FrameAllocator} {r : Frame} (h : Beginning a used r) :
    Agrees a PageMap.empty :=
  agrees_empty h.only

theorem not_ok_of_error {m : Walk Arena Unit} {e : PagingError} (h : m a = .ok (.error e) b) :
    ¬ ∃ c, m a = .ok (.ok ()) c := by
  rintro ⟨c, hok⟩
  rw [h] at hok
  simp at hok

/-- A page is mapped if it does not resolve yet and there are frames enough for its tables. -/
theorem Agrees.map_eq_ok_iff (h : Agrees a M) (ha : WellFormed a) (v : VirtAddr) (p : PhysAddr)
    (attributes : UInt64) : (∃ c, map v p attributes a = .ok (.ok ()) c) ↔
      v.isNull = false ∧ p.val ≠ 0 ∧ M.resolve v = none ∧ a.missing v.way ≤ a.frames.free := by
  by_cases hnull : v.isNull = true ∨ p.val = 0
  · refine iff_of_false (not_ok_of_error (map_of_null hnull)) ?_
    rintro ⟨hv, hp, -⟩
    simp [hv, hp] at hnull
  · rw [not_or, Bool.not_eq_true] at hnull
    obtain ⟨hv, hp⟩ := hnull
    obtain ⟨b, hgrown, -, hcases⟩ := map_cases ha hv hp attributes
    have hb := h.expanded hgrown.toExpanded
    rcases hcases with ⟨level, herror, -, hpos, hsum⟩ | ⟨pt, hpt, hfree, ⟨hpresent, herror⟩ |
      ⟨hvacant, c, hok, -⟩⟩
    · refine iff_of_false (not_ok_of_error herror) ?_
      rintro ⟨-, -, -, hframes⟩
      omega
    · refine iff_of_false (not_ok_of_error herror) ?_
      rintro ⟨-, -, hresolve, -⟩
      rw [hb.resolve_eq hpt, hpresent, if_pos rfl] at hresolve
      contradiction
    · refine iff_of_true ⟨c, hok⟩ ⟨hv, hp, ?_, by omega⟩
      rw [hb.resolve_eq hpt, hvacant, if_neg Bool.false_ne_true]

/-- A page is unmapped if it resolves. -/
theorem Agrees.unmap_eq_ok_iff (h : Agrees a M) (ha : WellFormed a) (v : VirtAddr) :
    (∃ c, unmap v a = .ok (.ok ()) c) ↔ v.isNull = false ∧ M.resolve v ≠ none := by
  cases hnull : v.isNull with
  | true =>
    refine iff_of_false (not_ok_of_error (unmap_of_null hnull)) ?_
    rintro ⟨hv, -⟩
    contradiction
  | false =>
    rcases unmap_cases ha.tree hnull with ⟨hnone, level, herror⟩ | ⟨pt, hpt, ⟨habsent, herror⟩ |
      ⟨hpresent, b, hok, -⟩⟩
    · refine iff_of_false (not_ok_of_error herror) ?_
      rintro ⟨-, hresolve⟩
      exact hresolve (h.resolve_eq_none hnone)
    · refine iff_of_false (not_ok_of_error herror) ?_
      rintro ⟨-, hresolve⟩
      rw [h.resolve_eq hpt, habsent, if_neg Bool.false_ne_true] at hresolve
      contradiction
    · refine iff_of_true ⟨b, hok⟩ ⟨rfl, ?_⟩
      rw [h.resolve_eq hpt, hpresent, if_pos rfl]
      exact Option.some_ne_none _

/-- The mapper implements its page map. Whatever is mapped and unmapped with whatever success, and
whatever else is done with the allocator and with frames that are no tables, the next action comes
to an end; pages are mapped and unmapped exactly if the map and the free frames allow it; and
translation and leaf flags of every address are those of the map. -/
theorem Run.implements_pageMap {requests : List FrameAllocator.Request} {trace : Trace}
    (hbegins : Begins a requests) (hrun : Run a trace b) :
    (∀ action : Action, action.Permitted b → ∃ result c, action.perform b = .ok result c) ∧
      (∀ (v : VirtAddr) (p : PhysAddr) (attributes : UInt64),
        (∃ c, map v p attributes b = .ok (.ok ()) c) ↔ v.isNull = false ∧ p.val ≠ 0 ∧
          (PageMap.ofTrace trace).resolve v = none ∧ b.missing v.way ≤ b.frames.free) ∧
      (∀ v : VirtAddr, (∃ c, unmap v b = .ok (.ok ()) c) ↔
        v.isNull = false ∧ (PageMap.ofTrace trace).resolve v ≠ none) ∧
      ∀ w : VirtAddr,
        (∃ p, Paging.translate b w = .ok p ∧ p.map (·.val) = (PageMap.ofTrace trace).resolve w) ∧
        ∃ flags, Paging.leafFlags b w = .ok flags ∧
          (∀ word, PageMap.ofTrace trace w.page = some word →
            flags = some (word &&& 0xfff0000000000fff)) ∧
          (PageMap.ofTrace trace w.page = none → flags = none ∨ flags = some 0) := by
  obtain ⟨_, _, hbeginning, -⟩ := hbegins.beginning
  obtain ⟨hb, hagrees⟩ := hrun.agrees hbeginning.wellFormed hbeginning.agrees
  refine ⟨fun action hpermitted => ?_, hagrees.map_eq_ok_iff hb, hagrees.unmap_eq_ok_iff hb,
    fun w => ⟨hagrees.translate hb.tree w, hagrees.leafFlags hb.tree w⟩⟩
  obtain ⟨result, c, hperform, -⟩ := hb.perform hpermitted
  exact ⟨result, c, hperform⟩

/-- With four frames, one of them for the root, a page is mapped and translated. -/
theorem Run.implements_pageMap_of_one_page :
    ∃ a b, Begins a [] ∧
      Run a [(.map ⟨0x40001000, by decide⟩ ⟨0x80002000, by decide⟩ 0, .ok ())] b ∧
      ∃ p, Paging.translate b ⟨0x40001234, by decide⟩ = .ok (some p) ∧ p.val = 0x80002234 := by
  obtain ⟨new, hnew⟩ : ∃ new, FrameAllocator.ofBuffer ⟨⟨0x200000, by decide⟩, 0x4000⟩
      ⟨⟨0x1000, by decide⟩, 1⟩ ⟨#[0xff]⟩ = .ok new := ⟨_, rfl⟩
  obtain ⟨a, hbegins, hcount⟩ := exists_begins hnew (by decide)
  have hfree : a.frames.free = 3 := Nat.succ.inj hcount
  obtain ⟨-, hmap, -⟩ := (Run.start (a := a)).implements_pageMap hbegins
  obtain ⟨b, hok⟩ := (hmap ⟨0x40001000, by decide⟩ ⟨0x80002000, by decide⟩ 0).mpr
    ⟨rfl, by decide, rfl, (a.missing_le_length _).trans (by rw [VirtAddr.length_way]; omega)⟩
  have hrun : Run a [(.map ⟨0x40001000, by decide⟩ ⟨0x80002000, by decide⟩ 0, .ok ())] b :=
    .next .start trivial hok
  obtain ⟨-, -, -, hread⟩ := hrun.implements_pageMap hbegins
  obtain ⟨⟨p, htranslate, hp⟩, -⟩ := hread ⟨0x40001234, by decide⟩
  have hresolve : (PageMap.ofTrace [(.map ⟨0x40001000, by decide⟩ ⟨0x80002000, by decide⟩ 0,
      .ok ())]).resolve ⟨0x40001234, by decide⟩ = some 0x80002234 := by decide
  rw [hresolve] at hp
  obtain ⟨q, rfl, hq⟩ := Option.map_eq_some_iff.mp hp
  exact ⟨a, b, hbegins, hrun, q, htranslate, hq⟩

end Paging

end KernelCore
