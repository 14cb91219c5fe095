import KernelCore.Proofs.Paging.Translations

/-!
# Tables with any contents

Unmapping finds its leaf by the walk that the reading operations take, so the two agree about every
page whatever the tables hold: tables that are shared, tables that link back to one above them,
large pages and links out of reach. `Stops` says where the walk to a page ends early. What unmapping
takes away may be a link on its own way; the way is cut then, and never leads to another table.
-/

namespace KernelCore

namespace Arena

variable {a b : Arena} {f : Frame} {i : TableIndex} {e : Entry}

/-- `b` is `a` without the present bit of one entry, which was set. -/
structure Cleared (a b : Arena) (f : Frame) (i : TableIndex) : Prop where
  alike : Alike a b
  frames : b.frames = a.frames
  wasSet : (a.cell f i).bit 0 = true
  bit : ∀ g j n, (b.cell g j).bit n =
    if g = f ∧ j = i ∧ n = 0 then false else (a.cell g j).bit n

theorem Wrote.cleared (h : Wrote a b f i (a.cell f i).withdrawn)
    (hpresent : (a.cell f i).isPresent = true) : Cleared a b f i := by
  refine ⟨h.alike, h.frames, by rwa [← Entry.isPresent_eq_bit], fun g j n => ?_⟩
  rw [h.cell]
  by_cases hentry : g = f ∧ j = i
  · obtain ⟨rfl, rfl⟩ := hentry
    rw [if_pos ⟨rfl, rfl⟩, Entry.bit_withdrawn]
    by_cases hn : n = 0
    · simp [hn]
    · simp [hn]
  · rw [if_neg hentry, if_neg fun h => hentry ⟨h.1, h.2.1⟩]

/-- An entry that is not present cuts ways and adds none. -/
theorem Wrote.tableAt?_of_vacant (h : Wrote a b f i e) (he : e.isPresent = false)
    (way : List TableIndex) : b.tableAt? way = none ∨ b.tableAt? way = a.tableAt? way := by
  induction way with
  | nil => exact .inr h.alike.root
  | cons j way ih =>
    rcases ih with hcut | hsame
    · exact .inl (by rw [Arena.tableAt?, hcut, Option.bind_none])
    · rw [Arena.tableAt?, Arena.tableAt?, hsame]
      cases hg : a.tableAt? way with
      | none => exact .inl rfl
      | some g =>
        rw [Option.bind_some, Option.bind_some]
        have hcell := h.cell g j
        split at hcell
        · exact .inl (child?_eq_none (hcell ▸ he))
        · exact .inr (child?_congr hcell)

end Arena

namespace Paging

variable {a b : Arena} {f pt : Frame} {v : VirtAddr} {level : LinkLevel}

/-- The level of a table whose entry leads nowhere is the one that a walk reports. -/
theorem leafTable_of_childless (hf : a.tableAt? (v.wayTo level) = some f)
    (h : a.child? f (level.index v) = none) :
    leafTable a v = .ok (.error (.invalidTable level)) := by
  have hfollow := follow_of_none h
  cases level with
  | pml4 =>
    rcases rootTable_cases a with ⟨g, hg, hroot⟩ | ⟨hroot, -⟩
    · obtain rfl := Option.some.inj (hg.symm.trans hf)
      rw [leafTable, lookup_bind_ok hroot, lookup_bind_error hfollow]
    · rw [leafTable, lookup_bind_error hroot]
  | pdpt =>
    obtain ⟨pml4, hpml4, hpdpt⟩ := Option.bind_eq_some_iff.mp hf
    rw [leafTable, lookup_bind_ok (rootTable_eq_ok hpml4 (Arena.reaches_of_child? hpdpt)),
      lookup_bind_ok (follow_of_some hpdpt), lookup_bind_error hfollow]
  | pd =>
    obtain ⟨pdpt, hway, hpd⟩ := Option.bind_eq_some_iff.mp hf
    obtain ⟨pml4, hpml4, hpdpt⟩ := Option.bind_eq_some_iff.mp hway
    rw [leafTable, lookup_bind_ok (rootTable_eq_ok hpml4 (Arena.reaches_of_child? hpdpt)),
      lookup_bind_ok (follow_of_some hpdpt), lookup_bind_ok (follow_of_some hpd), hfollow]

/-- A walk ends where it stops, with the level of that table. -/
theorem Stops.leaf_eq (h : Stops a v level) : leaf a v = .ok (.error (.invalidTable level)) := by
  cases h with
  | rootless root =>
    rcases rootTable_cases a with ⟨f, hf, -⟩ | ⟨herror, -⟩
    · rw [root] at hf
      contradiction
    · have htable : leafTable a v = .ok (.error (.invalidTable .pml4)) := lookup_bind_error herror
      exact lookup_bind_error htable
  | unreached table unreached =>
    refine lookup_bind_error (leafTable_of_childless table ?_)
    rw [Option.eq_none_iff_forall_ne_some]
    exact fun g hg => unreached (Arena.reaches_of_child? hg)
  | unlinked table entry =>
    refine lookup_bind_error (leafTable_of_childless table ?_)
    rw [Arena.child?, Arena.toOption_target, if_neg]
    rcases entry with habsent | hhuge
    · simp [habsent]
    · simp [hhuge]
  | leafless table unreached =>
    exact (lookup_bind_ok (leafTable_of_some table)).trans (entry_of_not_reaches unreached)

/-- A walk stops at one level at most. -/
theorem Stops.unique {level' : LinkLevel} (h : Stops a v level) (h' : Stops a v level') :
    level = level' := by
  have heq := Except.error.inj (Except.ok.inj (h.leaf_eq.symm.trans h'.leaf_eq))
  exact PagingError.invalidTable.inj heq

theorem unmap_of_stops (hv : v.isNull = false) (h : Stops a v level) :
    unmap v a = .ok (.error (.invalidTable level)) a := by
  have hleaf := h.leaf_eq
  rw [unmap, if_neg (by simp [hv])]
  cases hpt : a.tableAt? v.way with
  | none =>
    obtain ⟨level', hstops, herror⟩ := leafTable_of_none hpt
    obtain rfl := h.unique hstops
    have hlook : look (leafTable · v) a = .ok (.error (.invalidTable level)) a := by
      simp only [look, herror]
    exact bind_error hlook
  | some pt =>
    have htable := leafTable_of_some hpt
    rw [leaf, lookup_bind_ok htable] at hleaf
    have hlook : look (leafTable · v) a = .ok (.ok pt) a := by simp only [look, htable]
    have hentry : look (entry · pt v.leafIndex .pd) a = .ok (.error (.invalidTable level)) a := by
      simp only [look, hleaf]
    rw [bind_ok hlook]
    exact bind_error hentry

/-- A page does not resolve any more once the present bit of its leaf is cleared, wherever else on
its way that entry is used. -/
theorem presentLeaf?_of_withdrawn {e : Entry} (hwrote : Arena.Wrote a b pt v.leafIndex e)
    (he : e.isPresent = false) (hpt : a.tableAt? v.way = some pt) : presentLeaf? b v = none := by
  rw [presentLeaf?_eq]
  rcases hwrote.tableAt?_of_vacant he v.way with hcut | hsame
  · rw [hcut, Option.bind_none]
  · have hcell : b.cell pt v.leafIndex = e := by rw [hwrote.cell, if_pos ⟨rfl, rfl⟩]
    rw [hsame, hpt, Option.bind_some, hcell, he, if_neg Bool.false_ne_true]

/-- The present bit is one of the flags. -/
theorem flags_and_one_eq_zero {e : Entry} : e.flags &&& 1 = 0 ↔ e.isPresent = false := by
  have hmask : (0xfff0000000000fff : UInt64) &&& 1 = 1 := rfl
  rw [isPresent_eq_false_iff, Entry.flags, UInt64.and_assoc, hmask]

/-- Unmapping agrees with the operations that only read. Whatever the tables hold and wherever the
root is, unmapping a page comes to an end: with success exactly if the page resolves, with
`notMapped` exactly if it has a leaf that is not present, and with `invalidTable` exactly if it has
no leaf, and then with the level where the walk stops. Success clears the present bit of the leaf,
changes no other bit of any table, and the page does not resolve afterwards, even if its leaf is
one of the links on its way. After an error nothing has changed. -/
theorem unmap_agrees_with_reads (a : Arena) (hv : v.isNull = false) :
    ∃ result b, unmap v a = .ok result b ∧
      (result = .ok () ↔ ∃ p, translate a v = .ok (some p)) ∧
      (result = .error .notMapped ↔
        ∃ flags, leafFlags a v = .ok (some flags) ∧ flags &&& 1 = 0) ∧
      ((∃ level, result = .error (.invalidTable level)) ↔ leafFlags a v = .ok none) ∧
      (∀ level, result = .error (.invalidTable level) ↔ Stops a v level) ∧
      (result = .ok () → ∃ pt, leafTable a v = .ok (.ok pt) ∧ Arena.Cleared a b pt v.leafIndex ∧
        translate b v = .ok none) ∧
      ∀ e, result = .error e → b = a := by
  rcases leaf_cases a v with ⟨level, hstops, hleaf⟩ | ⟨pt, hpt, hreach, hleaf⟩
  · have htranslate : translate a v = .ok none := by simp only [translate, hleaf]
    have hflags : leafFlags a v = .ok none := by simp only [leafFlags, hleaf]
    refine ⟨_, a, unmap_of_stops hv hstops, ?_, ?_, ?_, fun level' => ⟨?_, fun h => ?_⟩, ?_,
      fun _ _ => rfl⟩
    · simp [htranslate]
    · simp [hflags]
    · simp [hflags]
    · rintro ⟨⟩
      exact hstops
    · rw [h.unique hstops]
    · simp
  · have hstops : ∀ level, ¬ Stops a v level := fun level h => by
      cases Except.ok.inj (h.leaf_eq.symm.trans hleaf)
    have hflags : leafFlags a v = .ok (some (a.cell pt v.leafIndex).flags) := by
      simp only [leafFlags, hleaf]
    rcases unmap_of_table hv hpt hreach with ⟨habsent, hrun⟩ | ⟨hpresent, b, hrun, hwrote, -⟩
    · have htranslate : translate a v = .ok none := by simp [translate, hleaf, habsent]
      refine ⟨_, a, hrun, ?_, ?_, ?_, fun level => ?_, ?_, fun _ _ => rfl⟩
      · simp [htranslate]
      · simp [hflags, flags_and_one_eq_zero, habsent]
      · simp [hflags]
      · simp [hstops]
      · simp
    · have htranslate : translate a v = .ok (some (physicalAddress (a.cell pt v.leafIndex) v)) := by
        simp [translate, hleaf, hpresent]
      refine ⟨_, b, hrun, ?_, ?_, ?_, fun level => ?_, fun _ => ?_, ?_⟩
      · simp [htranslate]
      · simp [hflags, flags_and_one_eq_zero, hpresent]
      · simp [hflags]
      · simp [hstops]
      · refine ⟨pt, leafTable_of_some hpt, hwrote.cleared hpresent, ?_⟩
        rw [translate_eq_map, presentLeaf?_of_withdrawn hwrote (Entry.isPresent_withdrawn _) hpt,
          Option.map_none]
      · simp

/-- The only table links back to itself, so the leaf of the page is also each link on its way. -/
theorem unmap_agrees_with_reads_of_self_link :
    ∃ (a b : Arena) (f : Frame), a.root = some f ∧ a.child? f 1 = some f ∧
      translate a ⟨0x8040201234, by decide⟩ = .ok (some ⟨0x200234, by decide⟩) ∧
      unmap ⟨0x8040201234, by decide⟩ a = .ok (.ok ()) b ∧ Arena.Cleared a b f 1 ∧
      translate b ⟨0x8040201234, by decide⟩ = .ok none := by
  obtain ⟨frames, -⟩ : ∃ frames, FrameAllocator.ofBuffer ⟨⟨0x200000, by decide⟩, 0x1000⟩
      ⟨⟨0x1000, by decide⟩, 1⟩ ⟨#[0xff]⟩ = .ok frames := ⟨_, rfl⟩
  have hf : (Arena.zeroed ⟨0x200000, by decide⟩ 1 (some ⟨0x200, by decide⟩) frames).reaches
      ⟨0x200, by decide⟩ := by
    rw [Arena.reaches_iff]
    simp [Arena.zeroed, Frame.base]
  let v : VirtAddr := ⟨0x8040201234, by decide⟩
  let f : Frame := ⟨0x200, by decide⟩
  obtain ⟨a, -, hwrote, -⟩ := Arena.write?_eq_some hf 1 (.link f)
  have hcell : a.cell f 1 = .link f := by rw [hwrote.cell, if_pos ⟨rfl, rfl⟩]
  have hchild := Arena.child?_eq_some hcell
  have hroot : a.tableAt? [] = some f := hwrote.alike.root
  have hpdpt := (Arena.tableAt?_cons hroot 1).trans hchild
  have hpd := (Arena.tableAt?_cons hpdpt 1).trans hchild
  have hindices : v.way = [1, 1, 1] ∧ v.leafIndex = 1 := by decide
  have hway : a.tableAt? v.way = some f := by
    rw [hindices.1]
    exact (Arena.tableAt?_cons hpd 1).trans hchild
  have htranslate : translate a v = .ok (some ⟨0x200234, by decide⟩) := by
    rw [translate_eq_map, presentLeaf?_eq, hway, Option.bind_some, hindices.2, hcell,
      if_pos (Entry.isPresent_link f), Option.map_some]
    decide
  obtain ⟨result, b, hrun, hok, -, -, -, hsuccess, -⟩ := unmap_agrees_with_reads a (v := v) rfl
  obtain rfl := hok.mpr ⟨_, htranslate⟩
  obtain ⟨pt, hpt, hcleared, hnone⟩ := hsuccess rfl
  have hsame : pt = f := Except.ok.inj (Except.ok.inj (hpt.symm.trans (leafTable_of_some hway)))
  rw [hsame, hindices.2] at hcleared
  exact ⟨a, b, f, hroot, hchild, htranslate, hrun, hcleared, hnone⟩

end Paging

end KernelCore
