import KernelCore.Paging.Arena
import KernelCore.Proofs.Frames.Accounting

/-!
# Hierarchy of page tables

A page is the number of a 4 KiB block of virtual addresses, and its way is the list of the entries
that lead to its last table, the entry nearest to the page first. `tableAt?` follows a way from the
root. Tables form a `Tree` if no two ways lead to one frame; linking a fresh table adds exactly one
way, and writing into a last table changes none.
-/

namespace KernelCore

namespace VirtAddr

/-- Number of the page that an address lies in. -/
def page (v : VirtAddr) : ℕ := v.val / 4096

/-- Indices of the entries to follow from the top table on, the last one first. -/
def way (v : VirtAddr) : List TableIndex :=
  [LinkLevel.pd.index v, LinkLevel.pdpt.index v, LinkLevel.pml4.index v]

theorem length_way (v : VirtAddr) : v.way.length = 3 := rfl

theorem page_eq_iff {v w : VirtAddr} :
    v.page = w.page ↔ v.way = w.way ∧ v.leafIndex = w.leafIndex := by
  have hv := v.canonical
  have hw := w.canonical
  simp only [page, way, leafIndex, LinkLevel.index, LinkLevel.span, index, List.cons.injEq,
    Fin.mk.injEq, and_true]
  omega

/-- The part of a way that ends at the table of a level. -/
def wayTo (v : VirtAddr) : LinkLevel → List TableIndex
  | .pml4 => []
  | .pdpt => [LinkLevel.pml4.index v]
  | .pd => [LinkLevel.pdpt.index v, LinkLevel.pml4.index v]

end VirtAddr

namespace Arena

variable {a b c : Arena} {f g : Frame} {i : TableIndex} {way : List TableIndex}

/-- Whether the table in a frame can be accessed. -/
def reaches (a : Arena) (f : Frame) : Prop := (a.tableNumber? f).isSome = true

theorem reaches_iff :
    a.reaches f ↔ a.base.val ≤ f.base.val ∧ (f.base.val - a.base.val) / 4096 < a.count := by
  rw [reaches, tableNumber?]
  split <;> simp_all

/-- An entry of a table. -/
def cell (a : Arena) (f : Frame) (i : TableIndex) : Entry := (a.read? f i).getD .absent

/-- The table that an entry links to. -/
def child? (a : Arena) (f : Frame) (i : TableIndex) : Option Frame :=
  (Paging.target (a.cell f i) .pml4).toOption

/-- The table at the end of a way. -/
def tableAt? (a : Arena) : List TableIndex → Option Frame
  | [] => a.root
  | i :: way => (a.tableAt? way).bind (a.child? · i)

theorem read?_eq_some (h : a.reaches f) (i : TableIndex) : a.read? f i = some (a.cell f i) := by
  obtain ⟨t, ht⟩ := Option.isSome_iff_exists.mp h
  simp [cell, read?, ht]

theorem tableNumber?_eq_none (h : ¬ a.reaches f) : a.tableNumber? f = none := by
  rwa [reaches, Bool.not_eq_true, Option.isSome_eq_false_iff, Option.isNone_iff_eq_none] at h

theorem read?_eq_none (h : ¬ a.reaches f) (i : TableIndex) : a.read? f i = none := by
  rw [read?, tableNumber?_eq_none h, Option.map_none]

/-- Nothing is present in a table that is out of reach. -/
theorem reaches_of_isPresent (h : (a.cell f i).isPresent = true) : a.reaches f := by
  by_contra hf
  rw [cell, read?_eq_none hf] at h
  simp [Entry.isPresent_eq_bit] at h

theorem toOption_target (e : Entry) (level : LinkLevel) :
    (Paging.target e level).toOption =
      if e.isPresent && !e.isHuge then some (.containing e.address) else none := by
  unfold Paging.target
  split <;> rfl

theorem child?_eq_none (h : (a.cell f i).isPresent = false) : a.child? f i = none := by
  simp [child?, toOption_target, h]

theorem child?_eq_some (h : a.cell f i = .link g) : a.child? f i = some g := by
  simp [child?, toOption_target, h]

theorem child?_congr (h : b.cell f i = a.cell f i) : b.child? f i = a.child? f i := by
  rw [child?, child?, h]

theorem child?_eq_some_iff : a.child? f i = some g ↔ (a.cell f i).isPresent = true ∧
    (a.cell f i).isHuge = false ∧ .containing (a.cell f i).address = g := by
  rw [child?, toOption_target, Option.ite_none_right_eq_some, Bool.and_eq_true,
    Bool.not_eq_true', Option.some.injEq, and_assoc]

theorem reaches_of_child? (h : a.child? f i = some g) : a.reaches f :=
  reaches_of_isPresent (child?_eq_some_iff.mp h).1

/-! ## Changes to tables -/

/-- `b` has its tables where `a` has them. -/
structure Alike (a b : Arena) : Prop where
  base : b.base = a.base
  count : b.count = a.count
  root : b.root = a.root

theorem Alike.refl (a : Arena) : Alike a a := ⟨rfl, rfl, rfl⟩

theorem Alike.trans (h₁ : Alike a b) (h₂ : Alike b c) : Alike a c :=
  ⟨h₂.base.trans h₁.base, h₂.count.trans h₁.count, h₂.root.trans h₁.root⟩

theorem Alike.reaches (h : Alike a b) (f : Frame) : b.reaches f ↔ a.reaches f := by
  rw [Arena.reaches, Arena.reaches, tableNumber?_congr h.base h.count]

/-- `b` is `a` with one entry written. -/
structure Wrote (a b : Arena) (f : Frame) (i : TableIndex) (e : Entry) : Prop where
  alike : Alike a b
  frames : b.frames = a.frames
  cell : ∀ g j, b.cell g j = if g = f ∧ j = i then e else a.cell g j

theorem write?_eq_some (h : a.reaches f) (i : TableIndex) (e : Entry) :
    ∃ b, a.write? f i e = some b ∧ Wrote a b f i e ∧ b.invalidated = a.invalidated := by
  obtain ⟨t, ht⟩ := Option.isSome_iff_exists.mp h
  obtain ⟨b, hb⟩ : ∃ b, a.write? f i e = some b := by simp [write?, ht]
  have hsame := hb
  simp only [write?, ht, Option.map_some, Option.some.injEq] at hsame
  have halike : Alike a b := ⟨by rw [← hsame], by rw [← hsame], by rw [← hsame]⟩
  refine ⟨b, hb, ⟨halike, by rw [← hsame], fun g j => ?_⟩, by rw [← hsame]⟩
  rw [cell, cell, read?_write? hb]
  by_cases hgf : f = g ∧ i = j
  · simp [hgf]
  · have : ¬ (g = f ∧ j = i) := fun h => hgf ⟨h.1.symm, h.2.symm⟩
    simp [hgf, this]

theorem fillTable?_eq_some (h : a.reaches f) (e : Entry) :
    ∃ b, a.fillTable? f e = some b ∧ Alike a b ∧ b.frames = a.frames ∧
      b.invalidated = a.invalidated ∧ ∀ g j, b.cell g j = if g = f then e else a.cell g j := by
  obtain ⟨t, ht⟩ := Option.isSome_iff_exists.mp h
  obtain ⟨b, hb⟩ : ∃ b, a.fillTable? f e = some b := by simp [fillTable?, ht]
  have hsame := hb
  simp only [fillTable?, ht, Option.map_some, Option.some.injEq] at hsame
  have halike : Alike a b := ⟨by rw [← hsame], by rw [← hsame], by rw [← hsame]⟩
  refine ⟨b, hb, halike, by rw [← hsame], by rw [← hsame], fun g j => ?_⟩
  rw [cell, cell, read?_fillTable? hb]
  by_cases hgf : f = g
  · simp [hgf]
  · simp [hgf, Ne.symm hgf]

theorem write?_eq_none (h : ¬ a.reaches f) (i : TableIndex) (e : Entry) :
    a.write? f i e = none := by
  rw [write?, tableNumber?_eq_none h, Option.map_none]

theorem fillTable?_eq_none (h : ¬ a.reaches f) (e : Entry) : a.fillTable? f e = none := by
  rw [fillTable?, tableNumber?_eq_none h, Option.map_none]

/-- Ways depend only on the entries of the tables that they pass. -/
theorem tableAt?_congr (hroot : b.root = a.root)
    (hchild : ∀ way f, way.length < 3 → a.tableAt? way = some f → ∀ i, b.child? f i = a.child? f i)
    (hway : way.length ≤ 3) : b.tableAt? way = a.tableAt? way := by
  induction way with
  | nil => exact hroot
  | cons i way ih =>
    have hlt : way.length < 3 := by simpa using hway
    rw [tableAt?, tableAt?, ih (by omega)]
    cases hf : a.tableAt? way with
    | none => rw [Option.bind_none, Option.bind_none]
    | some f => rw [Option.bind_some, Option.bind_some, hchild way f hlt hf i]

/-! ## Trees of tables -/

/-- No way leads to a frame that may still be handed out. -/
def Reserved (a : Arena) : Prop :=
  ∀ way f, way.length ≤ 3 → a.tableAt? way = some f → ¬ a.frames.isFree f

/-- The tables are within reach, each of them lies at the end of one way only, and none of them is
a frame that may still be handed out. -/
structure Tree (a : Arena) : Prop where
  rooted : ∃ f, a.root = some f
  reached : ∀ {way f}, way.length ≤ 3 → a.tableAt? way = some f → a.reaches f
  unique : ∀ {way way' f}, way.length ≤ 3 → way'.length ≤ 3 → a.tableAt? way = some f →
    a.tableAt? way' = some f → way = way'
  reserved : ∀ {way f}, way.length ≤ 3 → a.tableAt? way = some f → ¬ a.frames.isFree f

theorem Tree.root_reached (h : Tree a) (hroot : a.root = some f) : a.reaches f :=
  h.reached (show ([] : List TableIndex).length ≤ 3 by simp) hroot

/-- The upper tables hold nothing but links. -/
def Plain (a : Arena) : Prop :=
  ∀ way f, way.length < 3 → a.tableAt? way = some f →
    ∀ i, a.cell f i = .absent ∨ ∃ g, a.cell f i = .link g

/-- The tables of a tree keep their places as long as no upper table changes. -/
theorem Tree.congr (h : Tree a) (halike : Alike a b)
    (hchild : ∀ way f, way.length < 3 → a.tableAt? way = some f → ∀ i, b.child? f i = a.child? f i)
    (hfree : ∀ way f, way.length ≤ 3 → a.tableAt? way = some f → ¬ b.frames.isFree f) : Tree b := by
  have htable : ∀ {way}, way.length ≤ 3 → b.tableAt? way = a.tableAt? way := fun hway =>
    tableAt?_congr halike.root hchild hway
  constructor
  · rw [halike.root]; exact h.rooted
  · intro way f hway hf
    rw [htable hway] at hf
    exact (halike.reaches f).mpr (h.reached hway hf)
  · intro way way' f hway hway' hf hf'
    rw [htable hway] at hf
    rw [htable hway'] at hf'
    exact h.unique hway hway' hf hf'
  · intro way f hway hf
    rw [htable hway] at hf
    exact hfree way f hway hf

/-- A last table is no upper table. -/
theorem Tree.ne_of_length (h : Tree a) {pt : Frame} (hpt : a.tableAt? way = some pt)
    (hway : way.length = 3) {w : List TableIndex} (hw : w.length < 3) (hf : a.tableAt? w = some f) :
    f ≠ pt := by
  rintro rfl
  have := h.unique (by omega) (by omega) hf hpt
  rw [this] at hw
  omega

/-- Writing into a last table leaves all ways as they are. -/
theorem Wrote.tableAt? {pt : Frame} {e : Entry} (h : Tree a) (hwrote : Wrote a b pt i e)
    (hpt : a.tableAt? way = some pt) (hway : way.length = 3) {w : List TableIndex}
    (hw : w.length ≤ 3) : b.tableAt? w = a.tableAt? w := by
  refine tableAt?_congr hwrote.alike.root (fun w' f hw' hf j => child?_congr ?_) hw
  rw [hwrote.cell, if_neg fun hsame => h.ne_of_length hpt hway hw' hf hsame.1]

theorem Wrote.tree {pt : Frame} {e : Entry} (h : Tree a) (hwrote : Wrote a b pt i e)
    (hpt : a.tableAt? way = some pt) (hway : way.length = 3) : Tree b := by
  refine h.congr hwrote.alike (fun w f hw hf j => child?_congr ?_) fun w f hw hf => ?_
  · rw [hwrote.cell, if_neg fun hsame => h.ne_of_length hpt hway hw hf hsame.1]
  · rw [hwrote.frames]
    exact h.reserved hw hf

theorem Wrote.plain {pt : Frame} {e : Entry} (h : Tree a) (hplain : Plain a)
    (hwrote : Wrote a b pt i e) (hpt : a.tableAt? way = some pt) (hway : way.length = 3) :
    Plain b := by
  intro w f hw hf j
  rw [hwrote.tableAt? h hpt hway (by omega)] at hf
  rw [hwrote.cell, if_neg fun hsame => h.ne_of_length hpt hway hw hf hsame.1]
  exact hplain w f hw hf j

/-- Pages that share the table of a leaf differ from its page in their last index. -/
theorem Wrote.cell_of_page_ne {v w : VirtAddr} {pt pt' : Frame} {e : Entry} (h : Tree a)
    (hwrote : Wrote a b pt v.leafIndex e) (hpt : a.tableAt? v.way = some pt)
    (hpage : w.page ≠ v.page) (hpt' : a.tableAt? w.way = some pt') :
    b.cell pt' w.leafIndex = a.cell pt' w.leafIndex := by
  rw [hwrote.cell, if_neg]
  rintro ⟨rfl, hindex⟩
  have hway := h.unique w.length_way.le v.length_way.le hpt' hpt
  exact hpage (VirtAddr.page_eq_iff.mpr ⟨hway, hindex⟩)

/-- `b` is `a` with the entry `i` of the table `f` linked to a zeroed table `g`, which was handed
out for it. -/
structure Linked (a b : Arena) (f : Frame) (i : TableIndex) (g : Frame) : Prop where
  alike : Alike a b
  handed : a.frames.Handed b.frames g
  invalidated : b.invalidated = a.invalidated
  cell : ∀ h j, b.cell h j =
    if h = f ∧ j = i then .link g else if h = g then .absent else a.cell h j

/-- The table at the end of a way, to which no other way leads, lacks the table of an entry. -/
structure Gap (a : Arena) (way : List TableIndex) (f : Frame) (i : TableIndex) : Prop where
  reserved : a.Reserved
  length : way.length < 3
  table : a.tableAt? way = some f
  only : ∀ {w}, w.length ≤ 3 → a.tableAt? w = some f → w = way
  missing : a.tableAt? (i :: way) = none

/-- A way ends early: entry `i` of the table `f`, at the end of its part `way`, is not present. The
indices in `rest` would have come next. -/
structure BreaksOff (a : Arena) (target : List TableIndex) (i : TableIndex)
    (rest way : List TableIndex) (f : Frame) : Prop where
  split : target = (i :: rest).reverse ++ way
  table : a.tableAt? way = some f
  reached : a.reaches f
  vacant : (a.cell f i).isPresent = false

theorem BreaksOff.length {target rest : List TableIndex} (h : BreaksOff a target i rest way f) :
    target.length = (i :: rest).length + way.length := by
  rw [h.split, List.length_append, List.length_reverse]

/-- A table that is linked once is a gap where a way through it breaks off. -/
theorem BreaksOff.gap {target rest : List TableIndex} (h : BreaksOff a target i rest way f)
    (hreserved : a.Reserved) (hlength : target.length ≤ 3)
    (honly : ∀ {w}, w.length ≤ 3 → a.tableAt? w = some f → w = way) : Gap a way f i where
  reserved := hreserved
  length := by
    rw [h.length, List.length_cons] at hlength
    omega
  table := h.table
  only := honly
  missing := by rw [Arena.tableAt?, h.table, Option.bind_some, child?_eq_none h.vacant]

theorem Tree.gap (h : Tree a) (hlength : way.length < 3) (hf : a.tableAt? way = some f)
    (hmissing : a.tableAt? (i :: way) = none) : Gap a way f i :=
  ⟨fun _ _ => h.reserved, hlength, hf, fun hw hw' => h.unique hw hlength.le hw' hf, hmissing⟩

/-- The new table was at the end of no way. -/
theorem Linked.ne_of_tableAt? (hlinked : Linked a b f i g) (hreserved : a.Reserved)
    {w : List TableIndex} {t : Frame} (hw : w.length ≤ 3) (ht : a.tableAt? w = some t) : t ≠ g := by
  rintro rfl
  exact hreserved w t hw ht hlinked.handed.wasFree

/-- The new table has no entries. -/
theorem Linked.cell_new (hlinked : Linked a b f i g) (hgap : Gap a way f i) (j : TableIndex) :
    b.cell g j = .absent := by
  have hne := hlinked.ne_of_tableAt? hgap.reserved hgap.length.le hgap.table
  rw [hlinked.cell, if_neg fun hsame => hne hsame.1.symm, if_pos rfl]

/-- Linking a table adds the way to it and no other. -/
theorem Linked.tableAt? (hlinked : Linked a b f i g) (hgap : Gap a way f i)
    {w : List TableIndex} (hw : w.length ≤ 3) :
    b.tableAt? w = if w = i :: way then some g else a.tableAt? w := by
  have hlength := hgap.length
  induction w with
  | nil =>
    rw [if_neg (by simp)]
    exact hlinked.alike.root
  | cons j w ih =>
    have hlt : w.length < 3 := by simpa using hw
    rw [Arena.tableAt?, ih (by omega)]
    by_cases hext : w = i :: way
    · -- below the new table, which has no entries
      have hbelow : a.tableAt? (j :: w) = none := by
        rw [Arena.tableAt?, hext, hgap.missing, Option.bind_none]
      have hne : ¬ j :: w = i :: way := fun heq => by
        have hlen := congrArg List.length hext
        have hlen' := congrArg List.length heq
        simp at hlen hlen'
        omega
      rw [if_pos hext, if_neg hne, hbelow, Option.bind_some]
      refine child?_eq_none ?_
      rw [hlinked.cell_new hgap]
      simp [Entry.isPresent_eq_bit]
    · rw [if_neg hext]
      cases ht : a.tableAt? w with
      | none =>
        have hne : ¬ j :: w = i :: way := fun heq => by
          obtain ⟨-, rfl⟩ := List.cons.inj heq
          simp [hgap.table] at ht
        rw [if_neg hne, Arena.tableAt?, ht, Option.bind_none, Option.bind_none]
      | some t =>
        rw [Option.bind_some]
        by_cases heq : j :: w = i :: way
        · obtain ⟨rfl, rfl⟩ := List.cons.inj heq
          obtain rfl := Option.some.inj (ht.symm.trans hgap.table)
          rw [if_pos rfl]
          exact child?_eq_some (by rw [hlinked.cell, if_pos ⟨rfl, rfl⟩])
        · have hcell : ¬ (t = f ∧ j = i) := by
            rintro ⟨rfl, rfl⟩
            exact heq (by rw [hgap.only (by omega) ht])
          rw [if_neg heq, Arena.tableAt?, ht, Option.bind_some]
          refine child?_congr ?_
          rw [hlinked.cell, if_neg hcell,
            if_neg (hlinked.ne_of_tableAt? hgap.reserved (by omega) ht)]

theorem Linked.tableAt?_new (hlinked : Linked a b f i g) (hgap : Gap a way f i) :
    b.tableAt? (i :: way) = some g := by
  have hlength : (i :: way).length ≤ 3 := hgap.length
  rw [hlinked.tableAt? hgap hlength, if_pos rfl]

/-- What is at the end of a way is the new table, or was there before. -/
theorem Linked.tableAt?_cases (hlinked : Linked a b f i g) (hgap : Gap a way f i)
    {w : List TableIndex} {t : Frame} (hw : w.length ≤ 3) (ht : b.tableAt? w = some t) :
    w = i :: way ∧ t = g ∨ a.tableAt? w = some t ∧ t ≠ g := by
  rw [hlinked.tableAt? hgap hw] at ht
  split at ht
  · exact .inl ⟨‹_›, (Option.some.inj ht).symm⟩
  · exact .inr ⟨ht, hlinked.ne_of_tableAt? hgap.reserved hw ht⟩

theorem Linked.reserved (hlinked : Linked a b f i g) (hgap : Gap a way f i) : b.Reserved := by
  intro w t hw ht hfree
  obtain ⟨hwas, hne⟩ := hlinked.handed.isFree t hfree
  rcases hlinked.tableAt?_cases hgap hw ht with ⟨-, rfl⟩ | ⟨ht, -⟩
  · exact hne rfl
  · exact hgap.reserved w t hw ht hwas

/-- The new table lacks all tables. -/
theorem Linked.gap (hlinked : Linked a b f i g) (hgap : Gap a way f i)
    (hlength : (i :: way).length < 3) (j : TableIndex) : Gap b (i :: way) g j where
  reserved := hlinked.reserved hgap
  length := hlength
  table := hlinked.tableAt?_new hgap
  only hw ht := by
    rcases hlinked.tableAt?_cases hgap hw ht with ⟨hway, -⟩ | ⟨-, hne⟩
    · exact hway
    · exact absurd rfl hne
  missing := by
    rw [Arena.tableAt?, hlinked.tableAt?_new hgap, Option.bind_some]
    refine child?_eq_none ?_
    rw [hlinked.cell_new hgap]
    simp [Entry.isPresent_eq_bit]

theorem Linked.tree (h : Tree a) (hlinked : Linked a b f i g) (hg : a.reaches g)
    (hgap : Gap a way f i) : Tree b := by
  constructor
  · rw [hlinked.alike.root]; exact h.rooted
  · intro w t hw ht
    rw [hlinked.alike.reaches]
    rcases hlinked.tableAt?_cases hgap hw ht with ⟨-, rfl⟩ | ⟨ht, -⟩
    · exact hg
    · exact h.reached hw ht
  · intro w w' t hw hw' ht ht'
    rcases hlinked.tableAt?_cases hgap hw ht with ⟨rfl, rfl⟩ | ⟨ht, hne⟩ <;>
      rcases hlinked.tableAt?_cases hgap hw' ht' with ⟨rfl, h'⟩ | ⟨ht', hne'⟩
    · rfl
    · exact absurd rfl hne'
    · exact absurd h' hne
    · exact h.unique hw hw' ht ht'
  · intro w t hw ht
    exact hlinked.reserved hgap w t hw ht

theorem Linked.plain (hplain : Plain a) (hlinked : Linked a b f i g) (hgap : Gap a way f i) :
    Plain b := by
  intro w t hw ht j
  rcases hlinked.tableAt?_cases hgap hw.le ht with ⟨-, rfl⟩ | ⟨ht, hne⟩
  · exact .inl (hlinked.cell_new hgap j)
  · rw [hlinked.cell, if_neg hne]
    split
    · exact .inr ⟨g, rfl⟩
    · exact hplain w t hw ht j

/-! ## Growing trees -/

theorem tableAt?_cons (hf : a.tableAt? way = some f) (i : TableIndex) :
    a.tableAt? (i :: way) = a.child? f i := by
  rw [tableAt?, hf, Option.bind_some]

/-- `b` is `a` with some tables more. Last tables have the entries that they had, and none if they
are new. -/
structure Expanded (a b : Arena) : Prop where
  alike : Alike a b
  tree : Tree b
  plain : Plain b
  sound : b.frames.Sound
  region : b.frames.region = a.frames.region
  invalidated : b.invalidated = a.invalidated
  kept : ∀ {way f}, way.length ≤ 3 → a.tableAt? way = some f → b.tableAt? way = some f
  keptLeaf : ∀ {way f}, way.length = 3 → a.tableAt? way = some f → ∀ i, b.cell f i = a.cell f i
  newLeaf : ∀ {way f}, way.length = 3 → a.tableAt? way = none → b.tableAt? way = some f →
    ∀ i, b.cell f i = .absent

theorem Expanded.refl (h : Tree a) (hplain : Plain a) (hsound : a.frames.Sound) : Expanded a a where
  alike := Alike.refl a
  tree := h
  plain := hplain
  sound := hsound
  region := rfl
  invalidated := rfl
  kept _ hf := hf
  keptLeaf _ _ _ := rfl
  newLeaf _ hnone hf := by simp [hnone] at hf

/-- A way that is there at the end was there in the middle, or is new since. -/
theorem Expanded.middle (h : Expanded b c) (hway : way.length ≤ 3) (hf : c.tableAt? way = some f) :
    b.tableAt? way = some f ∨ b.tableAt? way = none := by
  cases hb : b.tableAt? way with
  | none => exact .inr rfl
  | some g => exact .inl (hf ▸ (h.kept hway hb).symm)

theorem Expanded.none_of_none (h : Expanded a b) (hway : way.length ≤ 3)
    (hb : b.tableAt? way = none) : a.tableAt? way = none := by
  cases ha : a.tableAt? way with
  | none => rfl
  | some f => simp [h.kept hway ha] at hb

theorem Expanded.trans (h₁ : Expanded a b) (h₂ : Expanded b c) : Expanded a c where
  alike := h₁.alike.trans h₂.alike
  tree := h₂.tree
  plain := h₂.plain
  sound := h₂.sound
  region := h₂.region.trans h₁.region
  invalidated := h₂.invalidated.trans h₁.invalidated
  kept hway hf := h₂.kept hway (h₁.kept hway hf)
  keptLeaf hway hf i := by
    rw [h₂.keptLeaf hway (h₁.kept (by omega) hf), h₁.keptLeaf hway hf]
  newLeaf hway hnone hf i := by
    rcases h₂.middle (by omega) hf with hb | hb
    · rw [h₂.keptLeaf hway hb, h₁.newLeaf hway hnone hb]
    · exact h₂.newLeaf hway hb hf i

/-- The tables that `b` has more than `a` are in the frames that were handed out since. -/
structure Grown (a b : Arena) : Prop extends Expanded a b where
  isUsed : ∀ g, b.frames.isUsed g = true ↔ a.frames.isUsed g = true ∨
    ∃ way, way.length ≤ 3 ∧ a.tableAt? way = none ∧ b.tableAt? way = some g

theorem Grown.refl (h : Tree a) (hplain : Plain a) (hsound : a.frames.Sound) : Grown a a where
  toExpanded := .refl h hplain hsound
  isUsed g := by
    refine ⟨.inl, fun h => h.elim id ?_⟩
    rintro ⟨way, -, hnone, hf⟩
    simp [hnone] at hf

theorem Grown.trans (h₁ : Grown a b) (h₂ : Grown b c) : Grown a c where
  toExpanded := h₁.toExpanded.trans h₂.toExpanded
  isUsed g := by
    rw [h₂.isUsed, h₁.isUsed, or_assoc]
    refine or_congr Iff.rfl ⟨?_, ?_⟩
    · rintro (⟨way, hway, hnone, hg⟩ | ⟨way, hway, hnone, hg⟩)
      · exact ⟨way, hway, hnone, h₂.kept hway hg⟩
      · exact ⟨way, hway, h₁.none_of_none hway hnone, hg⟩
    · rintro ⟨way, hway, hnone, hg⟩
      rcases h₂.middle hway hg with hb | hb
      · exact .inl ⟨way, hway, hnone, hb⟩
      · exact .inr ⟨way, hway, hb, hg⟩

/-- Last tables keep their entries when a table is linked. -/
theorem Linked.keptLeaf (hlinked : Linked a b f i g) (hgap : Gap a way f i)
    {w : List TableIndex} {t : Frame} (hw : w.length = 3) (ht : a.tableAt? w = some t)
    (j : TableIndex) : b.cell t j = a.cell t j := by
  have hlength := hgap.length
  have hupper : t ≠ f := by
    rintro rfl
    rw [hgap.only hw.le ht] at hw
    omega
  rw [hlinked.cell, if_neg fun hsame => hupper hsame.1,
    if_neg (hlinked.ne_of_tableAt? hgap.reserved hw.le ht)]

/-- A last table that was linked has no entries. -/
theorem Linked.newLeaf (hlinked : Linked a b f i g) (hgap : Gap a way f i)
    {w : List TableIndex} {t : Frame} (hw : w.length ≤ 3) (hnone : a.tableAt? w = none)
    (ht : b.tableAt? w = some t) (j : TableIndex) : b.cell t j = .absent := by
  rcases hlinked.tableAt?_cases hgap hw ht with ⟨-, rfl⟩ | ⟨ht, -⟩
  · exact hlinked.cell_new hgap j
  · simp [hnone] at ht

theorem Linked.grown (h : Tree a) (hplain : Plain a) (hlinked : Linked a b f i g)
    (hg : a.reaches g) (hgap : Gap a way f i) : Grown a b := by
  have hmissing := hgap.missing
  refine ⟨⟨hlinked.alike, hlinked.tree h hg hgap, hlinked.plain hplain hgap, hlinked.handed.sound,
    hlinked.handed.region, hlinked.invalidated, ?_, ?_, ?_⟩, ?_⟩
  · intro w t hw ht
    rw [hlinked.tableAt? hgap hw, if_neg, ht]
    rintro rfl
    simp [hmissing] at ht
  · intro w t hw ht j
    exact hlinked.keptLeaf hgap hw ht j
  · intro w t hw hnone ht j
    exact hlinked.newLeaf hgap hw.le hnone ht j
  · intro t
    rw [hlinked.handed.isUsed]
    refine or_congr Iff.rfl ⟨?_, ?_⟩
    · rintro rfl
      exact ⟨i :: way, hgap.length, hmissing, hlinked.tableAt?_new hgap⟩
    · rintro ⟨w, hw, hnone, ht⟩
      rcases hlinked.tableAt?_cases hgap hw ht with ⟨-, rfl⟩ | ⟨ht, -⟩
      · rfl
      · simp [hnone] at ht

/-! ## Missing tables -/

/-- How many tables of a way are missing. -/
def missing (a : Arena) : List TableIndex → ℕ
  | [] => 0
  | i :: way => a.missing way + if a.tableAt? (i :: way) = none then 1 else 0

theorem missing_eq_zero (hf : a.tableAt? way = some f) : a.missing way = 0 := by
  induction way generalizing f with
  | nil => rfl
  | cons i way ih =>
    cases hway : a.tableAt? way with
    | none => simp [tableAt?, hway] at hf
    | some g => rw [missing, ih hway, hf, if_neg (by simp)]

theorem missing_le_length (a : Arena) (way : List TableIndex) : a.missing way ≤ way.length := by
  induction way with
  | nil => exact Nat.le_refl 0
  | cons i way ih =>
    rw [missing, List.length_cons]
    split <;> omega

/-- All tables past the end of what is there are missing. -/
theorem missing_append_of_none (hnone : a.tableAt? way = none) (w : List TableIndex) :
    a.missing (w ++ way) = w.length + a.missing way ∧ a.tableAt? (w ++ way) = none := by
  induction w with
  | nil => exact ⟨(Nat.zero_add _).symm, hnone⟩
  | cons i w ih =>
    have hnext : a.tableAt? (i :: (w ++ way)) = none := by
      rw [tableAt?, ih.2, Option.bind_none]
    refine ⟨?_, hnext⟩
    rw [List.cons_append, missing, hnext, if_pos rfl, ih.1, List.length_cons]
    omega

/-- From the entry on at which a way breaks off, all its tables are missing. -/
theorem BreaksOff.missing_eq {target rest : List TableIndex}
    (h : BreaksOff a target i rest way f) : a.missing target = (i :: rest).length := by
  have hnone : a.tableAt? (i :: way) = none := by
    rw [tableAt?_cons h.table, child?_eq_none h.vacant]
  have hone : a.missing (i :: way) = 1 := by
    rw [missing, hnone, if_pos rfl, missing_eq_zero h.table]
  rw [h.split, List.reverse_cons, List.append_assoc, List.singleton_append,
    (missing_append_of_none hnone rest.reverse).1, hone, List.length_reverse, List.length_cons]

/-- A table more on the way is a missing one less. -/
theorem missing_append {w : List TableIndex} (hb : b.tableAt? way = some f)
    (hsame : ∀ w, way.length < w.length → w.length ≤ 3 → b.tableAt? w = a.tableAt? w)
    (hupper : a.missing way = 1) (hlength : (w ++ way).length ≤ 3) :
    b.missing (w ++ way) + 1 = a.missing (w ++ way) := by
  induction w with
  | nil => rw [List.nil_append, missing_eq_zero hb, hupper]
  | cons i w ih =>
    have hle : (w ++ way).length < 3 := by simpa using hlength
    rw [List.cons_append, missing, missing, ← ih (by omega),
      hsame (i :: (w ++ way)) (by simp) hle]
    omega

end Arena

end KernelCore
