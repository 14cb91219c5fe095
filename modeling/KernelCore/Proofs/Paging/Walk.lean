import KernelCore.Proofs.Paging.Hierarchy

/-!
# Walks over tables

What the mapper does at one table: it follows a link, makes the table that is missing, or gives up.
`exists_followed` lists the ways in which a step can end, whatever the tables hold. Walks that only
read end at the leaf of a page or at a level that they do not get past (`leaf_cases`).
-/

namespace KernelCore

namespace Paging

variable {σ ε α β : Type} {s s' : σ} {x : ExceptT ε (EStateM Halt σ) α}
  {k : α → ExceptT ε (EStateM Halt σ) β}

theorem bind_ok {r : α} (h : x s = .ok (.ok r) s') : (x >>= k) s = k r s' := by
  simp only [bind, ExceptT.bind, ExceptT.mk, EStateM.bind, h, ExceptT.bindCont]

theorem bind_error {e : ε} (h : x s = .ok (.error e) s') : (x >>= k) s = .ok (.error e) s' := by
  simp only [bind, ExceptT.bind, ExceptT.mk, EStateM.bind, h, ExceptT.bindCont]
  rfl

theorem lift_ok {x : EStateM Halt σ α} {r : α} (h : x s = .ok r s') :
    (liftM x : Walk σ α) s = .ok (.ok r) s' := by
  simp only [liftM, monadLift, MonadLift.monadLift, ExceptT.lift, ExceptT.mk, Functor.map,
    EStateM.map, h]

variable {level : LinkLevel}

theorem change_ok {p : σ → Except Halt (Option σ)} (h : p s = .ok (some s')) :
    change p level s = .ok (.ok ()) s' := by
  simp only [change, h]

variable {a b c : Arena} {f g : Frame} {i : TableIndex} {v : VirtAddr}

theorem entry_eq_ok (h : a.reaches f) : entry a f i level = .ok (.ok (a.cell f i)) := by
  have hread : TableMemory.read a f i = .ok (some (a.cell f i)) :=
    congrArg Except.ok (Arena.read?_eq_some h i)
  simp only [entry, hread]
  rfl

theorem look_entry (h : a.reaches f) :
    look (entry · f i level) a = .ok (.ok (a.cell f i)) a := by
  simp only [look, entry_eq_ok h]

theorem entry_of_not_reaches (h : ¬ a.reaches f) :
    entry a f i level = .ok (.error (.invalidTable level)) := by
  have hread : TableMemory.read a f i = .ok none := congrArg Except.ok (Arena.read?_eq_none h i)
  simp only [entry, hread]
  rfl

theorem change_clear (h : a.fillTable? f .absent = some b) :
    change (TableMemory.clear · f) level a = .ok (.ok ()) b :=
  change_ok (congrArg Except.ok h)

theorem change_clear_of_not_reaches (h : ¬ a.reaches f) :
    change (TableMemory.clear · f) level a = .ok (.error (.invalidTable level)) a := by
  simp only [change, TableMemory.clear, Arena.fillTable?_eq_none h]

theorem change_write {e : Entry} (h : a.write? f i e = some b) :
    change (TableMemory.write · f i e) level a = .ok (.ok ()) b :=
  change_ok (congrArg Except.ok h)

/-- A leaf is written and the page invalidated. -/
theorem change_leaf {pt : Frame} (hpt : a.reaches pt) (i : TableIndex) (e : Entry) :
    ∃ b, (do
        change (TableMemory.write · pt i e) .pd
        modify (TableMemory.invalidate · v) : Walk Arena Unit) a = .ok (.ok ()) b ∧
      Arena.Wrote a b pt i e ∧ b.invalidated = v :: a.invalidated := by
  obtain ⟨b, hb, hwrote, hdropped⟩ := Arena.write?_eq_some hpt i e
  refine ⟨{ b with invalidated := v :: b.invalidated }, bind_ok (change_write hb),
    ⟨⟨hwrote.alike.base, hwrote.alike.count, hwrote.alike.root⟩, hwrote.frames, hwrote.cell⟩, ?_⟩
  rw [← hdropped]

/-- An entry that is present is followed as far as it can be. -/
theorem followOrMake_of_present (hpresent : (a.cell f (level.index v)).isPresent = true) :
    followOrMake v f level a = .ok (target (a.cell f (level.index v)) level) a := by
  rw [followOrMake, bind_ok (look_entry (Arena.reaches_of_isPresent hpresent)), if_pos hpresent]
  rfl

/-- A table that is there is followed. -/
theorem followOrMake_of_child? (h : a.child? f (level.index v) = some g) :
    followOrMake v f level a = .ok (.ok g) a := by
  obtain ⟨hpresent, hhuge, htarget⟩ := Arena.child?_eq_some_iff.mp h
  rw [followOrMake_of_present hpresent, target, hpresent, hhuge, htarget]
  rfl

theorem followOrMake_of_link (hf : a.reaches f) (hlink : a.cell f (level.index v) = .link g) :
    followOrMake v f level a = .ok (.ok g) a := by
  rw [followOrMake, bind_ok (look_entry hf), hlink, if_pos (Entry.isPresent_link g)]
  simp [look, target]

theorem followOrMake_of_not_reaches (hf : ¬ a.reaches f) :
    followOrMake v f level a = .ok (.error (.invalidTable level)) a := by
  have hlook : look (entry · f (level.index v) level) a =
      .ok (.error (.invalidTable level)) a := by
    simp only [look, entry_of_not_reaches hf]
  rw [followOrMake, bind_error hlook]

theorem allocateFrame_eq_ok {r : Option Frame} {frames : FrameAllocator}
    (h : FrameAllocator.allocateFrame a.frames = .ok r frames) :
    (liftM (TableMemory.allocateFrame : EStateM Halt Arena (Option Frame)) :
      Walk Arena (Option Frame)) a = .ok (.ok r) { a with frames } := by
  refine lift_ok ?_
  simp only [TableMemory.allocateFrame, Arena.allocateFrame, h]

/-- Without a free frame nothing changes. -/
theorem followOrMake_of_none (hf : a.reaches f)
    (habsent : (a.cell f (level.index v)).isPresent = false)
    (hnone : FrameAllocator.allocateFrame a.frames = .ok none a.frames) :
    followOrMake v f level a = .ok (.error (.noMemory level)) a := by
  rw [followOrMake, bind_ok (look_entry hf), habsent, if_neg Bool.false_ne_true,
    bind_ok (allocateFrame_eq_ok hnone)]
  rfl

/-- A frame that was handed out is zeroed, and then linked. -/
theorem exists_linked {frames : FrameAllocator} (hf : a.reaches f) (hg : a.reaches g)
    (hhanded : a.frames.Handed frames g) (i : TableIndex) :
    ∃ b c, ({ a with frames } : Arena).fillTable? g .absent = some b ∧
      b.write? f i (.link g) = some c ∧ Arena.Alike a b ∧ b.frames = frames ∧
      (∀ h j, b.cell h j = if h = g then .absent else a.cell h j) ∧ Arena.Linked a c f i g := by
  obtain ⟨b, hb, hbalike, hbframes, hbdropped, hbcell⟩ :=
    Arena.fillTable?_eq_some (a := { a with frames }) hg .absent
  obtain ⟨c, hc, hcwrote, hcdropped⟩ :=
    Arena.write?_eq_some ((hbalike.reaches f).mpr hf) i (.link g)
  refine ⟨b, c, hb, hc, ⟨hbalike.base, hbalike.count, hbalike.root⟩, hbframes,
    fun h j => hbcell h j, ⟨⟨?_, ?_, ?_⟩, ?_, ?_, fun h j => ?_⟩⟩
  · exact hcwrote.alike.base.trans hbalike.base
  · exact hcwrote.alike.count.trans hbalike.count
  · exact hcwrote.alike.root.trans hbalike.root
  · rw [hcwrote.frames, hbframes]; exact hhanded
  · rw [hcdropped, hbdropped]
  · rw [hcwrote.cell, hbcell]
    rfl

/-- A table that is missing is zeroed and linked. -/
theorem followOrMake_of_some {frames : FrameAllocator} (hf : a.reaches f)
    (habsent : (a.cell f (level.index v)).isPresent = false)
    (hsome : FrameAllocator.allocateFrame a.frames = .ok (some g) frames)
    (hhanded : a.frames.Handed frames g) (hg : a.reaches g) :
    ∃ b, followOrMake v f level a = .ok (.ok g) b ∧ Arena.Linked a b f (level.index v) g := by
  obtain ⟨b, c, hb, hc, -, -, -, hlinked⟩ := exists_linked hf hg hhanded (level.index v)
  refine ⟨c, ?_, hlinked⟩
  rw [followOrMake, bind_ok (look_entry hf), habsent, if_neg Bool.false_ne_true,
    bind_ok (allocateFrame_eq_ok hsome)]
  exact (bind_ok (change_clear hb)).trans (bind_ok (change_write hc))

/-- What following an entry comes to, which is made if it is not present. -/
inductive Followed (a : Arena) (f : Frame) (i : TableIndex) (level : LinkLevel) :
    Except PagingError Frame → Arena → Prop
  | there {g : Frame} (child : a.child? f i = some g) : Followed a f i level (.ok g) a
  /-- The table is out of reach, or its entry is present and no link. -/
  | stuck (present : a.reaches f → (a.cell f i).isPresent = true) (childless : a.child? f i = none) :
      Followed a f i level (.error (.invalidTable level)) a
  | short (reached : a.reaches f) (vacant : (a.cell f i).isPresent = false)
      (exhausted : a.frames.free = 0) : Followed a f i level (.error (.noMemory level)) a
  /-- The frame for the table cannot hold one, and stays taken. -/
  | lost {g : Frame} {frames : FrameAllocator} (reached : a.reaches f)
      (vacant : (a.cell f i).isPresent = false) (handed : a.frames.Handed frames g)
      (unreached : ¬ a.reaches g) :
      Followed a f i level (.error (.invalidTable level)) { a with frames }
  | made {b : Arena} {g : Frame} (reached : a.reaches f) (vacant : (a.cell f i).isPresent = false)
      (linked : Arena.Linked a b f i g) (held : a.reaches g) : Followed a f i level (.ok g) b

theorem exists_followed (hsound : a.frames.Sound) (v : VirtAddr) (f : Frame) (level : LinkLevel) :
    ∃ r b, followOrMake v f level a = .ok r b ∧ Followed a f (level.index v) level r b := by
  by_cases hf : a.reaches f
  · cases hpresent : (a.cell f (level.index v)).isPresent with
    | true =>
      have hfollow := followOrMake_of_present hpresent
      cases hchild : a.child? f (level.index v) with
      | some g => exact ⟨_, a, followOrMake_of_child? hchild, .there hchild⟩
      | none =>
        have hbarred := hchild
        rw [Arena.child?, Arena.toOption_target, ite_eq_right_iff] at hbarred
        rw [target, if_neg fun hlink => by simpa using hbarred hlink] at hfollow
        exact ⟨_, a, hfollow, .stuck (fun _ => hpresent) hchild⟩
    | false =>
      rcases FrameAllocator.allocateFrame_handed hsound with
        ⟨hnone, hfree⟩ | ⟨g, frames, hsome, hhanded⟩
      · exact ⟨_, a, followOrMake_of_none hf hpresent hnone, .short hf hpresent hfree⟩
      · by_cases hg : a.reaches g
        · obtain ⟨b, hmade, hlinked⟩ := followOrMake_of_some hf hpresent hsome hhanded hg
          exact ⟨_, b, hmade, .made hf hpresent hlinked hg⟩
        · refine ⟨_, _, ?_, .lost hf hpresent hhanded hg⟩
          have hrefused : change (TableMemory.clear · g) level { a with frames } =
              .ok (.error (.invalidTable level)) { a with frames } := change_clear_of_not_reaches hg
          rw [followOrMake, bind_ok (look_entry hf), hpresent, if_neg Bool.false_ne_true,
            bind_ok (allocateFrame_eq_ok hsome)]
          exact bind_error hrefused
  · refine ⟨_, a, followOrMake_of_not_reaches hf, .stuck (fun h => absurd h hf) ?_⟩
    rw [Option.eq_none_iff_forall_ne_some]
    exact fun g hg => hf (Arena.reaches_of_child? hg)

/-! ## Walks that only read -/

theorem lookup_bind_ok {l : Lookup α} {q : α → Lookup β} {r : α} (h : l = .ok (.ok r)) :
    (l >>= q) = q r := by
  rw [h]
  rfl

theorem lookup_bind_error {l : Lookup α} {q : α → Lookup β} {e : PagingError}
    (h : l = .ok (.error e)) : (l >>= q) = .ok (.error e) := by
  rw [h]
  rfl

theorem rootTable_eq_ok (hroot : a.root = some f) (hf : a.reaches f) :
    rootTable a = .ok (.ok f) := by
  have hr : TableMemory.root a = some f := hroot
  have hh : TableMemory.holds a f = .ok true := congrArg Except.ok hf
  simp only [rootTable, hr, hh, if_pos]
  rfl

theorem follow_of_some (h : a.child? f (level.index v) = some g) :
    follow a v f level = .ok (.ok g) := by
  obtain ⟨hpresent, hhuge, htarget⟩ := Arena.child?_eq_some_iff.mp h
  rw [follow, lookup_bind_ok (entry_eq_ok (Arena.reaches_of_isPresent hpresent)), target, hpresent,
    hhuge, htarget]
  rfl

theorem follow_of_none (h : a.child? f (level.index v) = none) :
    follow a v f level = .ok (.error (.invalidTable level)) := by
  rw [follow]
  by_cases hf : a.reaches f
  · rw [lookup_bind_ok (entry_eq_ok hf)]
    rw [Arena.child?, Arena.toOption_target, ite_eq_right_iff] at h
    rw [target, if_neg fun hlink => by simpa using h hlink]
    rfl
  · exact lookup_bind_error (entry_of_not_reaches hf)

/-- The last table of a page is found where the page's way ends. -/
theorem leafTable_of_some {pt : Frame} (hpt : a.tableAt? v.way = some pt) :
    leafTable a v = .ok (.ok pt) := by
  obtain ⟨pd, hpd, hpt'⟩ := Option.bind_eq_some_iff.mp hpt
  obtain ⟨pdpt, hpdpt, hpd'⟩ := Option.bind_eq_some_iff.mp hpd
  obtain ⟨pml4, hroot, hpdpt'⟩ := Option.bind_eq_some_iff.mp hpdpt
  rw [leafTable, lookup_bind_ok (rootTable_eq_ok hroot (Arena.reaches_of_child? hpdpt')),
    lookup_bind_ok (follow_of_some hpdpt'), lookup_bind_ok (follow_of_some hpd'),
    follow_of_some hpt']

/-- The level of the table that a walk to the leaf of an address does not get past. -/
inductive Stops (a : Arena) (v : VirtAddr) : LinkLevel → Prop
  | rootless (root : a.root = none) : Stops a v .pml4
  /-- The table is out of reach. -/
  | unreached {level : LinkLevel} {f : Frame} (table : a.tableAt? (v.wayTo level) = some f)
      (unreached : ¬ a.reaches f) : Stops a v level
  /-- The entry of the table does not link to another one. -/
  | unlinked {level : LinkLevel} {f : Frame} (table : a.tableAt? (v.wayTo level) = some f)
      (entry : (a.cell f (level.index v)).isPresent = false ∨
        (a.cell f (level.index v)).isHuge = true) : Stops a v level
  /-- The last table is out of reach, which is put down to the level that links to it. -/
  | leafless {pt : Frame} (table : a.tableAt? v.way = some pt) (unreached : ¬ a.reaches pt) :
      Stops a v .pd

theorem stops_of_child? (level : LinkLevel) (hf : a.tableAt? (v.wayTo level) = some f)
    (h : a.child? f (level.index v) = none) : Stops a v level := by
  rw [Arena.child?, Arena.toOption_target, ite_eq_right_iff] at h
  refine .unlinked hf ?_
  by_contra hlink
  rw [not_or, Bool.not_eq_false, Bool.not_eq_true] at hlink
  simpa using h (by simp [hlink])

theorem rootTable_cases (a : Arena) :
    (∃ f, a.root = some f ∧ rootTable a = .ok (.ok f)) ∨
      rootTable a = .ok (.error (.invalidTable .pml4)) ∧ ∀ v, Stops a v .pml4 := by
  cases hroot : a.root with
  | none =>
    have hr : TableMemory.root a = none := hroot
    refine .inr ⟨?_, fun v => .rootless hroot⟩
    simp only [rootTable, hr]
    rfl
  | some f =>
    by_cases hf : a.reaches f
    · exact .inl ⟨f, rfl, rootTable_eq_ok hroot hf⟩
    · have hr : TableMemory.root a = some f := hroot
      have hh : TableMemory.holds a f = .ok false :=
        congrArg Except.ok (Bool.eq_false_iff.mpr hf)
      refine .inr ⟨?_, fun v => .unreached hroot hf⟩
      simp only [rootTable, hr, hh]
      rfl

/-- A page whose way ends early has no last table. -/
theorem leafTable_of_none (hpt : a.tableAt? v.way = none) :
    ∃ level, Stops a v level ∧ leafTable a v = .ok (.error (.invalidTable level)) := by
  rcases rootTable_cases a with ⟨pml4, hroot, hok⟩ | ⟨herror, hstops⟩
  · rw [leafTable, lookup_bind_ok hok]
    have h₀ : a.tableAt? [] = some pml4 := hroot
    have h₁ := Arena.tableAt?_cons h₀ (LinkLevel.pml4.index v)
    cases hpdpt : a.child? pml4 (LinkLevel.pml4.index v) with
    | none => exact ⟨_, stops_of_child? .pml4 h₀ hpdpt, lookup_bind_error (follow_of_none hpdpt)⟩
    | some pdpt =>
      rw [hpdpt] at h₁
      rw [lookup_bind_ok (follow_of_some hpdpt)]
      have h₂ := Arena.tableAt?_cons h₁ (LinkLevel.pdpt.index v)
      cases hpd : a.child? pdpt (LinkLevel.pdpt.index v) with
      | none => exact ⟨_, stops_of_child? .pdpt h₁ hpd, lookup_bind_error (follow_of_none hpd)⟩
      | some pd =>
        rw [hpd] at h₂
        rw [lookup_bind_ok (follow_of_some hpd)]
        have hlast := (Arena.tableAt?_cons h₂ _).symm.trans hpt
        exact ⟨_, stops_of_child? .pd h₂ hlast, follow_of_none hlast⟩
  · exact ⟨.pml4, hstops v, lookup_bind_error herror⟩

/-- The leaf of a page, or why there is none, in any tables. -/
theorem leaf_cases (a : Arena) (v : VirtAddr) :
    (∃ level, Stops a v level ∧ leaf a v = .ok (.error (.invalidTable level))) ∨
      ∃ pt, a.tableAt? v.way = some pt ∧ a.reaches pt ∧
        leaf a v = .ok (.ok (a.cell pt v.leafIndex)) := by
  cases hpt : a.tableAt? v.way with
  | none =>
    obtain ⟨level, hstops, herror⟩ := leafTable_of_none hpt
    exact .inl ⟨level, hstops, lookup_bind_error herror⟩
  | some pt =>
    have hleaf : leaf a v = entry a pt v.leafIndex .pd := lookup_bind_ok (leafTable_of_some hpt)
    rw [hleaf]
    by_cases hreach : a.reaches pt
    · exact .inr ⟨pt, rfl, hreach, entry_eq_ok hreach⟩
    · exact .inl ⟨.pd, .leafless hpt hreach, entry_of_not_reaches hreach⟩

/-- In a tree all last tables are within reach. -/
theorem leaf_eq (h : Arena.Tree a) (v : VirtAddr) :
    (∃ pt, a.tableAt? v.way = some pt ∧ leaf a v = .ok (.ok (a.cell pt v.leafIndex))) ∨
      a.tableAt? v.way = none ∧ ∃ level, leaf a v = .ok (.error (.invalidTable level)) := by
  rcases leaf_cases a v with ⟨level, -, herror⟩ | ⟨pt, hpt, -, hleaf⟩
  · cases hpt : a.tableAt? v.way with
    | none => exact .inr ⟨rfl, level, herror⟩
    | some pt =>
      have hleaf : leaf a v = entry a pt v.leafIndex .pd := lookup_bind_ok (leafTable_of_some hpt)
      rw [hleaf, entry_eq_ok (h.reached v.length_way.le hpt)] at herror
      cases Except.ok.inj herror
  · exact .inl ⟨pt, hpt, hleaf⟩

end Paging

end KernelCore
