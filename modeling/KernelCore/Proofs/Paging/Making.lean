import KernelCore.Proofs.Paging.Chains
import KernelCore.Proofs.Paging.Walk

/-!
# Making tables, mapping and unmapping

`makeTables` is the part of mapping that makes the tables of a page. Where it meets an entry that is
not present it makes all tables further on, as far as there are free frames (`makeTables_cases`). The
outcomes of mapping and unmapping a page are listed from there (`map_of_made`, `map_cases`,
`unmap_cases`), so what holds of every run of the mapper follows without looking at its code again.
-/

namespace KernelCore

namespace Paging

variable {a b c : Arena} {f g : Frame} {i : TableIndex} {v : VirtAddr}

/-! ## Making tables -/

/-- The tables on the way to a page, one for each level, from a table on. -/
def makeTables {σ : Type} [TableMemory σ] (v : VirtAddr) : List LinkLevel → Frame → Walk σ Frame
  | [], f => pure f
  | level :: rest, f => do makeTables v rest (← followOrMake v f level)

/-- What becomes of the tables along `indices` if already the first one is missing. -/
inductive Made (a : Arena) (f : Frame) (indices : List TableIndex) :
    Except PagingError Frame → Arena → Prop
  /-- All were made. The last one has no entries. -/
  | all {b : Arena} {pt : Frame} {made : List Frame} (chain : Arena.Chained a f indices made b)
      (length : made.length = indices.length) (last : made.getLast? = some pt)
      (reached : b.reaches pt) (blank : ∀ j, b.cell pt j = .absent) : Made a f indices (.ok pt) b
  /-- There were too few frames. -/
  | short {b : Arena} {level : LinkLevel} {made : List Frame}
      (chain : Arena.Chained a f indices made b) (length : made.length < indices.length)
      (exhausted : b.frames.free = 0) : Made a f indices (.error (.noMemory level)) b
  /-- One of the frames could not hold a table. -/
  | lost {b : Arena} {g : Frame} {level : LinkLevel} {frames : FrameAllocator} {made : List Frame}
      (chain : Arena.Chained a f indices made b) (handed : b.frames.Handed frames g)
      (unreached : ¬ b.reaches g) :
      Made a f indices (.error (.invalidTable level)) { b with frames }

theorem Made.cons {r : Except PagingError Frame} {i : TableIndex} {indices : List TableIndex}
    (h : Made b g indices r c) (hlinked : Arena.Linked a b f i g) (hg : a.reaches g) :
    Made a f (i :: indices) r c := by
  cases h with
  | @all _ pt made chain length last reached blank =>
    refine .all (chain.cons hlinked hg) (by simp [length]) ?_ reached blank
    rw [List.getLast?_cons, last, Option.getD_some]
  | short chain length exhausted =>
    exact .short (chain.cons hlinked hg) (by simpa using length) exhausted
  | lost chain handed unreached => exact .lost (chain.cons hlinked hg) handed unreached

/-- Where a table had to be made, all tables further on have to be made, for it has no entries. -/
theorem makeTables_of_vacant {a : Arena} {f : Frame} (v : VirtAddr) (level : LinkLevel)
    (rest : List LinkLevel) (hsound : a.frames.Sound) (hf : a.reaches f)
    (hused : ¬ a.frames.isFree f) (hvacant : (a.cell f (level.index v)).isPresent = false) :
    ∃ r c, makeTables v (level :: rest) f a = .ok r c ∧
      Made a f ((level :: rest).map (·.index v)) r c := by
  obtain ⟨r, b, hrun, hfollowed⟩ := exists_followed hsound v f level
  cases hfollowed with
  | there child =>
    rw [Arena.child?_eq_none hvacant] at child
    contradiction
  | stuck present _ => simp [present hf] at hvacant
  | short _ _ exhausted => exact ⟨_, a, bind_error hrun, .short .nil (by simp) exhausted⟩
  | lost _ _ handed unreached => exact ⟨_, _, bind_error hrun, .lost .nil handed unreached⟩
  | @made _ g _ _ linked held =>
    have hstep : makeTables v (level :: rest) f a = makeTables v rest g b := bind_ok hrun
    have hg : b.reaches g := (linked.alike.reaches g).mpr held
    have hblank : ∀ j, b.cell g j = .absent := fun j => by
      have hne : ¬ (g = f ∧ j = level.index v) := fun h => hused (h.1 ▸ linked.handed.wasFree)
      rw [linked.cell, if_neg hne, if_pos rfl]
    rw [hstep]
    cases rest with
    | nil => exact ⟨_, b, rfl, .all (.cons linked held .nil) rfl rfl hg hblank⟩
    | cons next rest =>
      obtain ⟨r, c, hrest, hmade⟩ := makeTables_of_vacant v next rest linked.handed.sound hg
        (fun hfree => (linked.handed.isFree g hfree).2 rfl)
        (by simp [hblank, Entry.isPresent_eq_bit])
      exact ⟨r, c, hrest, hmade.cons linked held⟩

/-- What becomes of the tables on the way to a page, whatever the tables hold, as long as none of
them lies in a free frame: they are all there, or one of them cannot be followed, or those are made
that are missing from the first vacant entry on. -/
theorem makeTables_cases (v : VirtAddr) (levels : List LinkLevel) {way : List TableIndex}
    (hsound : a.frames.Sound) (hreserved : a.Reserved) (hf : a.tableAt? way = some f)
    (hlength : levels.length + way.length ≤ 3) :
    let target := (levels.map (·.index v)).reverse ++ way
    (∃ pt, makeTables v levels f a = .ok (.ok pt) a ∧ a.tableAt? target = some pt) ∨
      (∃ level w t i, makeTables v levels f a = .ok (.error (.invalidTable level)) a ∧
        w.length < 3 ∧ a.tableAt? w = some t ∧ (i :: w) <:+ target ∧
        (a.reaches t → (a.cell t i).isPresent = true) ∧ a.child? t i = none) ∨
      ∃ i rest w t r c, makeTables v levels f a = .ok r c ∧ a.BreaksOff target i rest w t ∧
        Made a t (i :: rest) r c := by
  induction levels generalizing f way with
  | nil => exact .inl ⟨f, rfl, by simpa using hf⟩
  | cons level rest ih =>
    have htarget : ((level :: rest).map (·.index v)).reverse ++ way =
        (rest.map (·.index v)).reverse ++ (level.index v :: way) := by simp
    have hlt : way.length < 3 := by simp at hlength; omega
    by_cases hchild : ∃ g, a.child? f (level.index v) = some g
    · obtain ⟨g, hg⟩ := hchild
      have hstep : makeTables v (level :: rest) f a = makeTables v rest g a :=
        bind_ok (followOrMake_of_child? hg)
      simp only [htarget, hstep]
      exact ih ((Arena.tableAt?_cons hf _).trans hg) (by simp at hlength ⊢; omega)
    · have hchildless : a.child? f (level.index v) = none := by
        simpa [Option.eq_none_iff_forall_ne_some] using hchild
      by_cases hvacant : a.reaches f ∧ (a.cell f (level.index v)).isPresent = false
      · obtain ⟨r, c, hrun, hmade⟩ := makeTables_of_vacant v level rest hsound hvacant.1
          (hreserved way f hlt.le hf) hvacant.2
        rw [List.map_cons] at hmade
        exact .inr (.inr ⟨level.index v, rest.map (·.index v), way, f, r, c, hrun,
          ⟨rfl, hf, hvacant.1, hvacant.2⟩, hmade⟩)
      · have hpresent : a.reaches f → (a.cell f (level.index v)).isPresent = true := by
          simpa using hvacant
        have hsuffix : (level.index v :: way) <:+
            ((level :: rest).map (·.index v)).reverse ++ way := by
          rw [htarget]
          exact List.suffix_append _ _
        refine .inr (.inl ⟨level, way, f, level.index v, ?_, hlt, hf, hsuffix, hpresent,
          hchildless⟩)
        obtain ⟨r, b, hrun, hfollowed⟩ := exists_followed hsound v f level
        cases hfollowed with
        | there child => exact absurd ⟨_, child⟩ hchild
        | stuck _ _ => exact bind_error hrun
        | short reached vacant _ | lost reached vacant _ _ | made reached vacant _ _ =>
          exact absurd ⟨reached, vacant⟩ hvacant

/-! ## Making tables in a tree -/

/-- Every frame of an allocator's pool can hold a table. -/
def Addressable (a : Arena) (c : FrameAllocator) : Prop :=
  ∀ i < c.total, ∃ f : Frame, f.base.val = c.startOf i ∧ a.reaches f

theorem Addressable.reaches {c : FrameAllocator} (h : Addressable a c) (hfree : c.isFree g) :
    a.reaches g := by
  obtain ⟨i, hi, hg⟩ := hfree
  obtain ⟨f, hf, hreach⟩ := h i (FrameAllocator.mem_vacancies.mp hi).1
  rwa [FrameAllocator.base_injective (hg.trans hf.symm)]

theorem Addressable.congr {c d : FrameAllocator} (h : Addressable a c) (halike : Arena.Alike a b)
    (hregion : d.region = c.region) : Addressable b d := by
  intro i hi
  rw [FrameAllocator.total, hregion] at hi
  obtain ⟨f, hf, hreach⟩ := h i hi
  refine ⟨f, ?_, (halike.reaches f).mpr hreach⟩
  rw [hf, FrameAllocator.startOf, FrameAllocator.startOf, hregion]

/-- In a tree nothing is in the way of making the tables of a page. -/
theorem makeTables_of_tree (v : VirtAddr) (levels : List LinkLevel) {way : List TableIndex}
    (h : Arena.Tree a) (hplain : Arena.Plain a) (hsound : a.frames.Sound)
    (hf : a.tableAt? way = some f) (hlength : levels.length + way.length ≤ 3) :
    let target := (levels.map (·.index v)).reverse ++ way
    (∃ pt, makeTables v levels f a = .ok (.ok pt) a ∧ a.tableAt? target = some pt) ∨
      ∃ i rest w t r c, makeTables v levels f a = .ok r c ∧ a.BreaksOff target i rest w t ∧
        a.Gap w t i ∧ (i :: rest).length + w.length ≤ 3 ∧ Made a t (i :: rest) r c := by
  intro target
  have hreserved : a.Reserved := fun _ _ => h.reserved
  have hlimit : target.length ≤ 3 := by simpa [target] using hlength
  rcases makeTables_cases v levels hsound hreserved hf hlength with hthere |
    ⟨level, w, t, i, -, hw, ht, -, hpresent, hchildless⟩ |
    ⟨i, rest, w, t, r, c, hrun, hbreak, hmade⟩
  · exact .inl hthere
  · have hset := hpresent (h.reached hw.le ht)
    rcases hplain w t hw ht i with habsent | ⟨g, hlink⟩
    · simp [habsent, Entry.isPresent_eq_bit] at hset
    · simp [Arena.child?_eq_some hlink] at hchildless
  · have hlengths := hbreak.length ▸ hlimit
    have hgap := hbreak.gap hreserved hlimit fun hw' ht' =>
      h.unique hw' (by omega) ht' hbreak.table
    exact .inr ⟨i, rest, w, t, r, c, hrun, hbreak, hgap, hlengths, hmade⟩

/-- Whatever was made in a gap of a tree, the tables form a tree. -/
theorem Made.expanded {r : Except PagingError Frame} {way indices : List TableIndex}
    (hmade : Made a f indices r c) (h : Arena.Tree a) (hplain : Arena.Plain a)
    (hsound : a.frames.Sound) (hf : a.tableAt? way = some f)
    (hgaps : ∀ i ∈ indices.head?, a.Gap way f i) (hlength : indices.length + way.length ≤ 3) :
    Arena.Expanded a c ∧ ∀ pt, r = .ok pt → c.tableAt? (indices.reverse ++ way) = some pt := by
  cases hmade with
  | all chain length last _ _ =>
    refine ⟨(chain.grown h hplain hsound hgaps hlength).toExpanded, ?_⟩
    rintro pt ⟨⟩
    have hend := chain.tableAt? hf hgaps hlength
    rwa [length, List.take_length, last, Option.getD_some] at hend
  | short chain _ _ =>
    exact ⟨(chain.grown h hplain hsound hgaps hlength).toExpanded, fun pt hpt => by simp at hpt⟩
  | lost chain handed _ =>
    have hgrown := chain.grown h hplain hsound hgaps hlength
    exact ⟨hgrown.toExpanded.trans (Arena.expanded_of_handed hgrown.tree hgrown.plain handed),
      fun pt hpt => by simp at hpt⟩

/-- Following the levels of a page makes what is missing, as far as there are free frames. -/
theorem makeTables_spec (v : VirtAddr) (levels : List LinkLevel) {way : List TableIndex}
    (h : Arena.Tree a) (hplain : Arena.Plain a) (hsound : a.frames.Sound)
    (hpool : Addressable a a.frames) (hf : a.tableAt? way = some f)
    (hlength : levels.length + way.length ≤ 3) :
    let target := (levels.map (·.index v)).reverse ++ way
    ∃ b, Arena.Grown a b ∧ (a.missing target = 0 → b = a) ∧
      ((∃ pt, makeTables v levels f a = .ok (.ok pt) b ∧ b.tableAt? target = some pt ∧
          b.frames.free + a.missing target = a.frames.free) ∨
        ∃ level, makeTables v levels f a = .ok (.error (.noMemory level)) b ∧
          b.frames.free = 0 ∧ 0 < b.missing target ∧
          b.missing target + a.frames.free = a.missing target) := by
  intro target
  rcases makeTables_of_tree v levels h hplain hsound hf hlength with
    ⟨pt, hrun, hpt⟩ | ⟨i, rest, w, t, r, c, hrun, hbreak, hgap, hlengths, hmade⟩
  · refine ⟨a, .refl h hplain hsound, fun _ => rfl, .inl ⟨pt, hrun, hpt, ?_⟩⟩
    rw [Arena.missing_eq_zero hpt, Nat.add_zero]
  · have hsplit : target = (i :: rest).reverse ++ w := hbreak.split
    have hused := hgap.reserved w t (by omega) hgap.table
    have hmissing : a.missing target = (i :: rest).length := hbreak.missing_eq
    cases hmade with
    | @all _ pt made chain length last _ _ =>
      have hend := chain.tableAt? hgap.table hgap.first hlengths
      rw [length, List.take_length, ← hsplit, last, Option.getD_some] at hend
      have hcount := (chain.appended hused).count
      exact ⟨c, chain.grown h hplain hsound hgap.first hlengths,
        fun hzero => by simp [hmissing] at hzero, .inl ⟨pt, hrun, hend, by omega⟩⟩
    | @short _ level made chain length exhausted =>
      have hless := chain.missing hgap.first hlengths
      rw [← hsplit] at hless
      have hcount := (chain.appended hused).count
      exact ⟨c, chain.grown h hplain hsound hgap.first hlengths,
        fun hzero => by simp [hmissing] at hzero, .inr ⟨level, hrun, exhausted, by omega, by omega⟩⟩
    | @lost b g _ _ _ chain handed unreached =>
      have hgrown := chain.grown h hplain hsound hgap.first hlengths
      have hb := hpool.congr hgrown.alike hgrown.region
      exact absurd (hb.reaches handed.wasFree) unreached

/-! ## Mapping and unmapping -/

/-- An arena as the mapper leaves it: a tree of tables with plain links, and a sound allocator. -/
structure Tidy (a : Arena) : Prop where
  tree : Arena.Tree a
  plain : Arena.Plain a
  sound : a.frames.Sound

theorem Tidy.wrote {way : List TableIndex} {pt : Frame} {e : Entry} (h : Tidy a)
    (hwrote : Arena.Wrote a b pt i e) (hpt : a.tableAt? way = some pt) (hway : way.length = 3) :
    Tidy b where
  tree := hwrote.tree h.tree hpt hway
  plain := hwrote.plain h.tree h.plain hpt hway
  sound := by rw [hwrote.frames]; exact h.sound

/-- An arena whose allocator has no frames but such that can hold tables. -/
structure WellFormed (a : Arena) : Prop extends Tidy a where
  addressable : Addressable a a.frames

theorem WellFormed.grown (h : WellFormed a) (hgrown : Arena.Grown a b) : WellFormed b :=
  ⟨⟨hgrown.tree, hgrown.plain, hgrown.sound⟩, h.addressable.congr hgrown.alike hgrown.region⟩

/-- What can become of a page that has a last table and is to be unmapped. -/
theorem unmap_of_table {pt : Frame} (hv : v.isNull = false) (hpt : a.tableAt? v.way = some pt)
    (hreach : a.reaches pt) :
    (a.cell pt v.leafIndex).isPresent = false ∧ unmap v a = .ok (.error .notMapped) a ∨
      (a.cell pt v.leafIndex).isPresent = true ∧ ∃ b, unmap v a = .ok (.ok ()) b ∧
        Arena.Wrote a b pt v.leafIndex (a.cell pt v.leafIndex).withdrawn ∧
        b.invalidated = v :: a.invalidated := by
  have hlook : look (leafTable · v) a = .ok (.ok pt) a := by
    simp only [look, leafTable_of_some hpt]
  rw [unmap, if_neg (by simp [hv]), bind_ok hlook, bind_ok (look_entry hreach)]
  cases hpresent : (a.cell pt v.leafIndex).isPresent with
  | false => exact .inl ⟨rfl, rfl⟩
  | true =>
    obtain ⟨b, hb, hwrote, hdropped⟩ := change_leaf (v := v) hreach v.leafIndex
      (a.cell pt v.leafIndex).withdrawn
    exact .inr ⟨rfl, b, hb, hwrote, hdropped⟩

/-- What can become of a page that is to be unmapped. -/
theorem unmap_cases (h : Arena.Tree a) (hv : v.isNull = false) :
    (a.tableAt? v.way = none ∧ ∃ level, unmap v a = .ok (.error (.invalidTable level)) a) ∨
      ∃ pt, a.tableAt? v.way = some pt ∧
        ((a.cell pt v.leafIndex).isPresent = false ∧ unmap v a = .ok (.error .notMapped) a ∨
          (a.cell pt v.leafIndex).isPresent = true ∧ ∃ b, unmap v a = .ok (.ok ()) b ∧
            Arena.Wrote a b pt v.leafIndex (a.cell pt v.leafIndex).withdrawn ∧
            b.invalidated = v :: a.invalidated) := by
  cases hpt : a.tableAt? v.way with
  | none =>
    obtain ⟨level, -, herror⟩ := leafTable_of_none hpt
    refine .inl ⟨rfl, level, ?_⟩
    rw [unmap, if_neg (by simp [hv])]
    refine bind_error ?_
    simp only [look, herror]
  | some pt => exact .inr ⟨pt, rfl, unmap_of_table hv hpt (h.reached v.length_way.le hpt)⟩

theorem unmap_of_null (hv : v.isNull = true) : unmap v a = .ok (.error .null) a := by
  rw [unmap, if_pos hv]
  rfl

theorem map_of_null {p : PhysAddr} {attributes : UInt64} (h : v.isNull = true ∨ p.val = 0) :
    map v p attributes a = .ok (.error .null) a := by
  rw [map, if_pos (by simpa using h)]
  rfl

/-- Mapping makes the tables of the page and then looks at its leaf. -/
theorem map_eq {σ : Type} [TableMemory σ] {p : PhysAddr} {attributes : UInt64}
    (hv : v.isNull = false) (hp : p.val ≠ 0) : map v p attributes = (do
      let pml4 ← look rootTable
      let pt ← makeTables v [.pml4, .pdpt, .pd] pml4
      let e ← look (entry · pt v.leafIndex .pd)
      if e.isPresent then throw (.alreadyMapped v e.address)
      else
        change (TableMemory.write · pt v.leafIndex (.leaf p attributes)) .pd
        modify (TableMemory.invalidate · v) : Walk σ Unit) := by
  rw [map, if_neg (by simp [hv, hp])]
  simp only [makeTables, bind_assoc, bind_pure]

/-- Mapping after its tables were made, or not. -/
theorem map_of_made {p : PhysAddr} {pml4 : Frame} {r : Except PagingError Frame}
    (attributes : UInt64) (hv : v.isNull = false) (hp : p.val ≠ 0)
    (hroot : look rootTable a = .ok (.ok pml4) a)
    (hmade : makeTables v [.pml4, .pdpt, .pd] pml4 a = .ok r b) :
    (∀ e, r = .error e → map v p attributes a = .ok (.error e) b) ∧
      ∀ pt, r = .ok pt →
        ¬ b.reaches pt ∧ map v p attributes a = .ok (.error (.invalidTable .pd)) b ∨
        (b.cell pt v.leafIndex).isPresent = true ∧ map v p attributes a =
          .ok (.error (.alreadyMapped v (b.cell pt v.leafIndex).address)) b ∨
        (b.cell pt v.leafIndex).isPresent = false ∧ ∃ c, map v p attributes a = .ok (.ok ()) c ∧
          Arena.Wrote b c pt v.leafIndex (.leaf p attributes) ∧
          c.invalidated = v :: b.invalidated := by
  rw [map_eq hv hp, bind_ok hroot]
  constructor
  · rintro e rfl
    exact bind_error hmade
  · rintro pt rfl
    rw [bind_ok hmade]
    by_cases hreach : b.reaches pt
    · rw [bind_ok (look_entry hreach)]
      cases hpresent : (b.cell pt v.leafIndex).isPresent with
      | true => exact .inr (.inl ⟨rfl, rfl⟩)
      | false =>
        obtain ⟨c, hc, hwrote, hdropped⟩ :=
          change_leaf (v := v) hreach v.leafIndex (.leaf p attributes)
        exact .inr (.inr ⟨rfl, c, hc, hwrote, hdropped⟩)
    · have hlook : look (entry · pt v.leafIndex .pd) b = .ok (.error (.invalidTable .pd)) b := by
        simp only [look, entry_of_not_reaches hreach]
      exact .inl ⟨hreach, bind_error hlook⟩

theorem Tidy.look_root (h : Tidy a) :
    ∃ pml4, a.tableAt? [] = some pml4 ∧ look rootTable a = .ok (.ok pml4) a := by
  obtain ⟨pml4, hroot⟩ := h.tree.rooted
  refine ⟨pml4, hroot, ?_⟩
  simp only [look, rootTable_eq_ok hroot (h.tree.root_reached hroot)]

/-- A page is mapped in its last table, or it is not; the tables form a tree in any case. -/
theorem Tidy.map {p : PhysAddr} (h : Tidy a) (hv : v.isNull = false) (hp : p.val ≠ 0)
    (attributes : UInt64) :
    ∃ b, Arena.Expanded a b ∧ ((∃ e, Paging.map v p attributes a = .ok (.error e) b) ∨
      ∃ pt c, b.tableAt? v.way = some pt ∧ (b.cell pt v.leafIndex).isPresent = false ∧
        Paging.map v p attributes a = .ok (.ok ()) c ∧
        Arena.Wrote b c pt v.leafIndex (.leaf p attributes) ∧
        c.invalidated = v :: a.invalidated) := by
  obtain ⟨pml4, h₀, hlook⟩ := h.look_root
  have htables : ∃ r b, makeTables v [.pml4, .pdpt, .pd] pml4 a = .ok r b ∧ Arena.Expanded a b ∧
      ∀ pt, r = .ok pt → b.tableAt? v.way = some pt := by
    rcases makeTables_of_tree v [.pml4, .pdpt, .pd] h.tree h.plain h.sound h₀ (by simp) with
      ⟨pt, hrun, hpt⟩ | ⟨i, rest, w, t, r, b, hrun, hbreak, hgap, hlengths, hmade⟩
    · refine ⟨_, a, hrun, .refl h.tree h.plain h.sound, ?_⟩
      rintro _ ⟨⟩
      exact hpt
    · have hsplit : v.way = (i :: rest).reverse ++ w := hbreak.split
      rw [hsplit]
      exact ⟨r, b, hrun, hmade.expanded h.tree h.plain h.sound hgap.table hgap.first hlengths⟩
  obtain ⟨r, b, hrun, hexpanded, hlast⟩ := htables
  obtain ⟨herror, hok⟩ := map_of_made attributes hv hp hlook hrun
  refine ⟨b, hexpanded, ?_⟩
  cases r with
  | error e => exact .inl ⟨e, herror e rfl⟩
  | ok pt =>
    rcases hok pt rfl with ⟨-, hmap⟩ | ⟨-, hmap⟩ | ⟨hvacant, c, hmap, hwrote, hdropped⟩
    · exact .inl ⟨_, hmap⟩
    · exact .inl ⟨_, hmap⟩
    · rw [hexpanded.invalidated] at hdropped
      exact .inr ⟨pt, c, hlast pt rfl, hvacant, hmap, hwrote, hdropped⟩

/-- What can become of a page that is to be mapped, after the tables that are missing were made. -/
theorem map_cases {p : PhysAddr} (h : WellFormed a) (hv : v.isNull = false) (hp : p.val ≠ 0)
    (attributes : UInt64) :
    ∃ b, Arena.Grown a b ∧ (a.missing v.way = 0 → b = a) ∧
      ((∃ level, map v p attributes a = .ok (.error (.noMemory level)) b ∧ b.frames.free = 0 ∧
          0 < b.missing v.way ∧ b.missing v.way + a.frames.free = a.missing v.way) ∨
        ∃ pt, b.tableAt? v.way = some pt ∧ b.frames.free + a.missing v.way = a.frames.free ∧
          ((b.cell pt v.leafIndex).isPresent = true ∧ map v p attributes a =
              .ok (.error (.alreadyMapped v (b.cell pt v.leafIndex).address)) b ∨
            (b.cell pt v.leafIndex).isPresent = false ∧ ∃ c, map v p attributes a = .ok (.ok ()) c ∧
              Arena.Wrote b c pt v.leafIndex (.leaf p attributes) ∧
              c.invalidated = v :: a.invalidated)) := by
  obtain ⟨pml4, h₀, hlook⟩ := h.look_root
  obtain ⟨b, hgrown, hsame, hmade⟩ := makeTables_spec v [.pml4, .pdpt, .pd] h.tree h.plain h.sound
    h.addressable h₀ (by simp)
  have htarget : ([LinkLevel.pml4, .pdpt, .pd].map (·.index v)).reverse ++ [] = v.way := rfl
  rw [htarget] at hsame hmade
  refine ⟨b, hgrown, hsame, ?_⟩
  rcases hmade with ⟨pt, hok, hpt, hfree⟩ | ⟨level, herror, hfree, hpos, hsum⟩
  · have hreach := hgrown.tree.reached v.length_way.le hpt
    obtain ⟨-, hleaf⟩ := map_of_made attributes hv hp hlook hok
    rw [hgrown.invalidated] at hleaf
    exact .inr ⟨pt, hpt, hfree, (hleaf pt rfl).resolve_left fun h => h.1 hreach⟩
  · obtain ⟨hmap, -⟩ := map_of_made attributes hv hp hlook herror
    exact .inl ⟨level, hmap _ rfl, hfree, hpos, hsum⟩

end Paging

end KernelCore
