import KernelCore.Proofs.Paging.Hierarchy

/-!
# Chains of new tables

The tables that a page lacks are made one after the other, each in a frame of its own and linked in
the table before it. Whatever the tables looked like before, such a chain changes nothing but the
entry that it begins with and the frames of its own tables (`Chained.appended`). It begins in a gap
if no other way leads to that entry; then it adds the ways along it and no others.
-/

namespace KernelCore

namespace Arena

variable {a b c : Arena} {f g : Frame} {i : TableIndex} {way indices : List TableIndex}
  {made : List Frame}

/-- `c` is `a` with the tables `made`. The first one is linked in `f` and each other one in the table
before it, at the first of `indices`, the second, and so on. -/
inductive Chained : Arena → Frame → List TableIndex → List Frame → Arena → Prop
  | nil {a : Arena} {f : Frame} {indices : List TableIndex} : Chained a f indices [] a
  | cons {a b c : Arena} {f g : Frame} {i : TableIndex} {indices : List TableIndex}
      {made : List Frame} (linked : Linked a b f i g) (reached : a.reaches g)
      (rest : Chained b g indices made c) : Chained a f (i :: indices) (g :: made) c

/-- The links of a chain: in which table, at which index, to which table. -/
def links (f : Frame) (indices : List TableIndex) (made : List Frame) :
    List (Frame × TableIndex × Frame) :=
  (f :: made).zip (indices.zip made)

theorem links_cons : links f (i :: indices) (g :: made) = (f, i, g) :: links g indices made := rfl

theorem mem_of_mem_links {x : Frame × TableIndex × Frame} (h : x ∈ links f indices made) :
    x.1 ∈ f :: made :=
  (List.of_mem_zip h).1

/-- What a chain of new tables consists of, and that nothing else changes. -/
structure Appended (a c : Arena) (f : Frame) (indices : List TableIndex) (made : List Frame) :
    Prop where
  alike : Alike a c
  invalidated : c.invalidated = a.invalidated
  region : c.frames.region = a.frames.region
  nodup : made.Nodup
  wasFree : ∀ g ∈ made, a.frames.isFree g
  isUsed : ∀ g, c.frames.isUsed g = true ↔ a.frames.isUsed g = true ∨ g ∈ made
  count : c.frames.free + made.length = a.frames.free
  link : ∀ x ∈ links f indices made, c.cell x.1 x.2.1 = .link x.2.2
  /-- The tables of the chain are zero apart from the links, and all others are as they were. -/
  rest : ∀ h j, (∀ g, (h, j, g) ∉ links f indices made) →
    c.cell h j = if h ∈ made then .absent else a.cell h j

theorem Appended.refl (a : Arena) (f : Frame) (indices : List TableIndex) :
    Appended a a f indices [] where
  alike := .refl a
  invalidated := rfl
  region := rfl
  nodup := List.nodup_nil
  wasFree g hg := by simp at hg
  isUsed g := by simp
  count := rfl
  link x hx := by simp [links] at hx
  rest h j _ := by simp

/-- A table more at the beginning of a chain. -/
theorem Linked.appended (hlinked : Linked a b f i g) (h : Appended b c g indices made)
    (hf : ¬ a.frames.isFree f) : Appended a c f (i :: indices) (g :: made) := by
  have hmade : ∀ t ∈ made, a.frames.isFree t ∧ t ≠ g := fun t ht =>
    hlinked.handed.isFree t (h.wasFree t ht)
  have hg : g ∉ made := fun hmem => (hmade g hmem).2 rfl
  have hfresh : f ∉ g :: made := by
    rw [List.mem_cons, not_or]
    exact ⟨fun heq => hf (heq ▸ hlinked.handed.wasFree), fun hmem => hf (hmade f hmem).1⟩
  constructor
  · exact hlinked.alike.trans h.alike
  · rw [h.invalidated, hlinked.invalidated]
  · rw [h.region, hlinked.handed.region]
  · exact List.nodup_cons.mpr ⟨hg, h.nodup⟩
  · intro t ht
    rcases List.mem_cons.mp ht with rfl | ht
    · exact hlinked.handed.wasFree
    · exact (hmade t ht).1
  · intro t
    rw [h.isUsed, hlinked.handed.isUsed, List.mem_cons, or_assoc]
  · have hcount := hlinked.handed.count
    have hrest := h.count
    rw [List.length_cons]
    omega
  · intro x hx
    rw [links_cons, List.mem_cons] at hx
    rcases hx with rfl | hx
    · -- the rest of the chain does not reach back into the first table
      have hrest := h.rest f i fun t ht => hfresh (mem_of_mem_links ht)
      rw [hrest, if_neg fun hmem => hfresh (List.mem_cons_of_mem _ hmem), hlinked.cell,
        if_pos ⟨rfl, rfl⟩]
    · exact h.link x hx
  · intro t j hnew
    simp only [links_cons, List.mem_cons, not_or] at hnew
    have hfirst : ¬ (t = f ∧ j = i) := by
      rintro ⟨rfl, rfl⟩
      exact (hnew g).1 rfl
    rw [h.rest t j fun t' => (hnew t').2, hlinked.cell, if_neg hfirst]
    by_cases hmem : t ∈ made
    · simp [hmem]
    · simp [hmem]

theorem Chained.appended (h : Chained a f indices made c) (hf : ¬ a.frames.isFree f) :
    Appended a c f indices made := by
  induction h with
  | nil => exact .refl _ _ _
  | cons linked _ _ ih =>
    exact linked.appended (ih fun hfree => (linked.handed.isFree _ hfree).2 rfl) hf

/-! ## Chains in a gap -/

theorem Gap.first (h : Gap a way f i) : ∀ j ∈ (i :: indices).head?, Gap a way f j := by
  rintro j ⟨⟩
  exact h

/-- The rest of a chain is in a gap again. -/
theorem Linked.gaps (hlinked : Linked a b f i g) (hgap : Gap a way f i)
    (hlength : (i :: indices).length + way.length ≤ 3) :
    ∀ j ∈ indices.head?, Gap b (i :: way) g j := by
  intro j hj
  obtain ⟨rest, rfl⟩ := List.head?_eq_some_iff.mp hj
  simp only [List.length_cons] at hlength
  exact hlinked.gap hgap (by rw [List.length_cons]; omega) j

/-- What linking a table in a gap keeps is kept by a chain that begins in a gap. -/
theorem Chained.induction_gap {P : Arena → Arena → Prop} (hrefl : ∀ a, P a a)
    (hcons : ∀ {a b c way f i g}, Linked a b f i g → a.reaches g → Gap a way f i → P b c → P a c)
    (h : Chained a f indices made c) (hgap : ∀ i ∈ indices.head?, Gap a way f i)
    (hlength : indices.length + way.length ≤ 3) : P a c := by
  induction h generalizing way with
  | nil => exact hrefl _
  | cons linked reached _ ih =>
    have hfirst := hgap _ rfl
    refine hcons linked reached hfirst (ih (linked.gaps hfirst hlength) ?_)
    simp only [List.length_cons] at hlength ⊢
    omega

/-- A tree grows by a chain. -/
theorem Chained.grown (h : Chained a f indices made c) (htree : Tree a) (hplain : Plain a)
    (hsound : a.frames.Sound) (hgap : ∀ i ∈ indices.head?, Gap a way f i)
    (hlength : indices.length + way.length ≤ 3) : Grown a c := by
  refine h.induction_gap (P := fun a c => Tree a → Plain a → a.frames.Sound → Grown a c)
    (fun _ => .refl) ?_ hgap hlength htree hplain hsound
  intro a b c way f i g hlinked hg hgap hrest htree hplain _
  have hgrown := hlinked.grown htree hplain hg hgap
  exact hgrown.trans (hrest hgrown.tree hgrown.plain hgrown.sound)

/-- The way along a chain ends at its last table. -/
theorem Chained.tableAt? (h : Chained a f indices made c) (hf : a.tableAt? way = some f)
    (hgap : ∀ i ∈ indices.head?, Gap a way f i) (hlength : indices.length + way.length ≤ 3) :
    c.tableAt? ((indices.take made.length).reverse ++ way) = some (made.getLast?.getD f) := by
  induction h generalizing way with
  | nil => simpa using hf
  | cons linked _ _ ih =>
    have hfirst := hgap _ rfl
    have hend := ih (linked.tableAt?_new hfirst) (linked.gaps hfirst hlength) (by
      simp only [List.length_cons] at hlength ⊢
      omega)
    simpa [List.getLast?_cons] using hend

/-- As many tables are missing less as the chain has. -/
theorem Chained.missing (h : Chained a f indices made c)
    (hgap : ∀ i ∈ indices.head?, Gap a way f i) (hlength : indices.length + way.length ≤ 3) :
    c.missing (indices.reverse ++ way) + made.length = a.missing (indices.reverse ++ way) := by
  induction h generalizing way with
  | nil => rfl
  | @cons a b c f g i indices made linked _ _ ih =>
    have hfirst := hgap _ rfl
    have hrest := ih (linked.gaps hfirst hlength) (by
      simp only [List.length_cons] at hlength ⊢
      omega)
    have hone : a.missing (i :: way) = 1 := by
      rw [Arena.missing, hfirst.missing, if_pos rfl, missing_eq_zero hfirst.table]
    have hless := missing_append (w := indices.reverse) (linked.tableAt?_new hfirst)
      (fun w hw hw' => by
        rw [linked.tableAt? hfirst hw', if_neg (by rintro rfl; omega)])
      hone (by
        simp only [List.length_append, List.length_reverse, List.length_cons] at hlength ⊢
        omega)
    rw [List.reverse_cons, List.append_assoc, List.singleton_append, List.length_cons]
    omega

/-- No table changes by a frame that is handed out and not linked. -/
theorem expanded_of_handed {frames : FrameAllocator} (htree : Tree a) (hplain : Plain a)
    (hhanded : a.frames.Handed frames g) : Expanded a { a with frames } := by
  have htable : ∀ {way}, way.length ≤ 3 → ({ a with frames } : Arena).tableAt? way = a.tableAt? way :=
    tableAt?_congr rfl fun _ _ _ _ _ => rfl
  constructor
  · exact ⟨rfl, rfl, rfl⟩
  · exact htree.congr ⟨rfl, rfl, rfl⟩ (fun _ _ _ _ _ => rfl) fun way t hway ht hfree =>
      htree.reserved hway ht (hhanded.isFree t hfree).1
  · intro way t hway ht
    rw [htable hway.le] at ht
    exact hplain way t hway ht
  · exact hhanded.sound
  · exact hhanded.region
  · rfl
  · intro way t hway ht
    rw [htable hway, ht]
  · intro way t _ _ j
    rfl
  · intro way t hway hnone ht
    rw [htable hway.le, hnone] at ht
    contradiction

end Arena

end KernelCore
