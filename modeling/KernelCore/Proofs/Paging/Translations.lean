import KernelCore.Proofs.Paging.PageMap
import KernelCore.Proofs.Paging.Simulation

/-!
# Cached translations

A processor may remember the leaf of a page that resolves, and may forget it, at any moment, also in
the middle of a call to the mapper. `Cached` is a memory with such a cache beside it. As long as the
mapper makes tables, no leaf changes, so everything that is remembered stays right; from the moment
when a leaf is written until its page is invalidated, that page alone may be remembered wrongly.
-/

namespace KernelCore

namespace Paging

section PresentLeaves

variable {σ : Type} [TableMemory σ] {s : σ} {v w : VirtAddr} {e : Entry}

/-- The leaf of a page that resolves. -/
def presentLeaf? (s : σ) (v : VirtAddr) : Option Entry :=
  match leaf s v with
  | .ok (.ok e) => if e.isPresent then some e else none
  | _ => none

theorem presentLeaf?_eq_some :
    presentLeaf? s v = some e ↔ leaf s v = .ok (.ok e) ∧ e.isPresent = true := by
  unfold presentLeaf?
  split
  · rename_i e' hleaf
    rw [hleaf, Option.ite_none_right_eq_some]
    constructor
    · rintro ⟨hpresent, heq⟩
      obtain rfl := Option.some.inj heq
      exact ⟨rfl, hpresent⟩
    · rintro ⟨heq, hpresent⟩
      obtain rfl := Except.ok.inj (Except.ok.inj heq)
      exact ⟨hpresent, rfl⟩
  · rename_i hother
    refine iff_of_false (by simp) ?_
    rintro ⟨hleaf, -⟩
    exact hother e hleaf

/-- All addresses of a page have the same leaf. -/
theorem presentLeaf?_congr (h : v.page = w.page) : presentLeaf? s v = presentLeaf? s w := by
  obtain ⟨hway, hindex⟩ := VirtAddr.page_eq_iff.mp h
  simp only [VirtAddr.way, List.cons.injEq, and_true] at hway
  obtain ⟨hpd, hpdpt, hpml4⟩ := hway
  simp only [presentLeaf?, leaf, leafTable, follow, hpd, hpdpt, hpml4, hindex]

/-- A page resolves if its leaf is present, and then to the leaf's frame. -/
theorem translate_eq_some {p : PhysAddr} :
    translate s v = .ok (some p) ↔ ∃ e, presentLeaf? s v = some e ∧ physicalAddress e v = p := by
  constructor
  · intro h
    unfold translate at h
    split at h
    · contradiction
    · simp at h
    · rename_i e hleaf
      have hsome := Option.ite_none_right_eq_some.mp (Except.ok.inj h)
      exact ⟨e, presentLeaf?_eq_some.mpr ⟨hleaf, hsome.1⟩, Option.some.inj hsome.2⟩
  · rintro ⟨e, he, rfl⟩
    obtain ⟨hleaf, hpresent⟩ := presentLeaf?_eq_some.mp he
    simp only [translate, hleaf, hpresent, if_pos]

theorem leafFlags_of_presentLeaf? (h : presentLeaf? s v = some e) :
    leafFlags s v = .ok (some e.flags) := by
  simp only [leafFlags, (presentLeaf?_eq_some.mp h).1]

/-- A page has no leaf without its entry in the top table. -/
theorem presentLeaf?_of_absent {f : Frame} (hroot : rootTable s = .ok (.ok f))
    (hread : TableMemory.read s f (LinkLevel.pml4.index v) = .ok (some e))
    (habsent : e.isPresent = false) : presentLeaf? s v = none := by
  have hentry : entry s f (LinkLevel.pml4.index v) .pml4 = .ok (.ok e) := by
    simp only [entry, hread]
    rfl
  have hfollow : follow s v f .pml4 = .ok (.error (.invalidTable .pml4)) := by
    rw [follow, lookup_bind_ok hentry, target, habsent]
    rfl
  have htable : leafTable s v = .ok (.error (.invalidTable .pml4)) := by
    rw [leafTable, lookup_bind_ok hroot]
    exact lookup_bind_error hfollow
  simp only [presentLeaf?, leaf, lookup_bind_error htable]

end PresentLeaves

/-! ## Memories with a cache -/

/-- Leaves by page, as a processor remembers them. -/
abbrev TranslationCache := ℕ → Option Entry

/-- What a cache does by itself. -/
inductive CacheEvent
  /-- The leaf of an address's page is remembered if the page resolves. -/
  | fill (v : VirtAddr)
  | evict (page : ℕ)

/-- An access that changes a table, or drops a page from the cache. -/
inductive Access
  | write (f : Frame) (i : TableIndex) (e : Entry)
  | clear (f : Frame)
  | invalidate (v : VirtAddr)

/-- A memory with a cache of translations. -/
structure Cached (σ : Type) where
  memory : σ
  cache : TranslationCache
  /-- What the cache does by itself before each of the changes to come. -/
  schedule : List (List CacheEvent)
  /-- The latest access first. -/
  accesses : List Access

section Caches

variable {σ : Type} [TableMemory σ]

def CacheEvent.apply (s : σ) (cache : TranslationCache) : CacheEvent → TranslationCache
  | .fill v =>
    match presentLeaf? s v with
    | none => cache
    | some e => Function.update cache v.page (some e)
  | .evict page => Function.update cache page none

namespace Cached

/-- A memory of which nothing is remembered yet. -/
def cold (s : σ) : Cached σ := ⟨s, fun _ => none, [], []⟩

/-- The cache does what it is scheduled to do, and then the memory changes. -/
def next (c : Cached σ) (accesses : List Access) (m : σ) : Cached σ where
  memory := m
  cache := (c.schedule.headD []).foldl (CacheEvent.apply c.memory) c.cache
  schedule := c.schedule.tail
  accesses := accesses ++ c.accesses

/-- The cache drops a page. -/
def drop (c : Cached σ) (v : VirtAddr) : Cached σ :=
  { c with cache := Function.update c.cache v.page none }

instance : TableMemory (Cached σ) where
  root c := TableMemory.root c.memory
  holds c f := TableMemory.holds c.memory f
  read c f i := TableMemory.read c.memory f i
  write c f i e := (TableMemory.write c.memory f i e).map (·.map (c.next [.write f i e]))
  clear c f := (TableMemory.clear c.memory f).map (·.map (c.next [.clear f]))
  invalidate c v := (c.next [.invalidate v] (TableMemory.invalidate c.memory v)).drop v
  allocateFrame c :=
    match (TableMemory.allocateFrame : EStateM Halt σ (Option Frame)) c.memory with
    | .ok f m => .ok f (c.next [] m)
    | .error halt m => .error halt (c.next [] m)

/-- What is done to the tables does not depend on the cache. -/
theorem simulates : Simulates fun (s : σ) (c : Cached σ) => c.memory = s where
  root := by
    rintro _ c rfl
    rfl
  holds := by
    rintro f _ c rfl
    exact .same _
  read := by
    rintro f i _ c rfl
    exact .same _
  write := by
    rintro f i e _ c rfl
    simp only [TableMemory.write]
    rcases TableMemory.write c.memory f i e with halt | _ | m
    · exact .stopped halt
    · exact .refused
    · exact .done rfl
  clear := by
    rintro f _ c rfl
    simp only [TableMemory.clear]
    rcases TableMemory.clear c.memory f with halt | _ | m
    · exact .stopped halt
    · exact .refused
    · exact .done rfl
  invalidate := by
    rintro v _ c rfl
    rfl
  allocateFrame := by
    rintro _ c rfl
    simp only [TableMemory.allocateFrame]
    rcases TableMemory.allocateFrame c.memory with ⟨f, m⟩ | ⟨halt, m⟩
    · exact .done f rfl
    · exact .stopped halt rfl

/-- Whatever is remembered of a page that is not stale is its present leaf. -/
def Faithful (c : Cached σ) (stale : Set ℕ) : Prop :=
  ∀ w : VirtAddr, w.page ∉ stale → ∀ e, c.cache w.page = some e → presentLeaf? c.memory w = some e

variable {c : Cached σ} {stale : Set ℕ}

theorem Faithful.event (h : c.Faithful stale) (event : CacheEvent) :
    ({ c with cache := event.apply c.memory c.cache } : Cached σ).Faithful stale := by
  intro w hw e he
  cases event with
  | fill v =>
    cases hleaf : presentLeaf? c.memory v with
    | none =>
      simp only [CacheEvent.apply, hleaf] at he
      exact h w hw e he
    | some e' =>
      simp only [CacheEvent.apply, hleaf] at he
      by_cases hpage : w.page = v.page
      · rw [hpage, Function.update_self] at he
        obtain rfl := Option.some.inj he
        exact (presentLeaf?_congr hpage).trans hleaf
      · rw [Function.update_of_ne hpage] at he
        exact h w hw e he
  | evict page =>
    by_cases hpage : w.page = page
    · simp [CacheEvent.apply, hpage] at he
    · simp only [CacheEvent.apply, Function.update_of_ne hpage] at he
      exact h w hw e he

theorem Faithful.events (h : c.Faithful stale) (events : List CacheEvent) :
    ({ c with cache := events.foldl (CacheEvent.apply c.memory) c.cache } : Cached σ).Faithful
      stale := by
  induction events generalizing c with
  | nil => exact h
  | cons event rest ih => exact ih (h.event event)

/-- A change that concerns the leaves of stale pages only. -/
theorem Faithful.next (h : c.Faithful stale) {accesses : List Access} {m : σ}
    (hsame : ∀ w : VirtAddr, w.page ∉ stale → presentLeaf? m w = presentLeaf? c.memory w) :
    (c.next accesses m).Faithful stale := by
  intro w hw e he
  exact (hsame w hw).trans (h.events (c.schedule.headD []) w hw e he)

/-- A page that is dropped is not stale any more. -/
theorem Faithful.drop {v : VirtAddr} (h : c.Faithful {v.page}) : (c.drop v).Faithful ∅ := by
  intro w _ e he
  by_cases hpage : w.page = v.page
  · simp [Cached.drop, hpage] at he
  · simp only [Cached.drop, Function.update_of_ne hpage] at he
    exact h w hpage e he

theorem Faithful.mono {stale' : Set ℕ} (h : c.Faithful stale) (hsub : stale ⊆ stale') :
    c.Faithful stale' :=
  fun w hw e he => h w (fun hmem => hw (hsub hmem)) e he

end Cached

end Caches

/-! ## Leaves in a tree of tables -/

section Trees

variable {a b : Arena} {f g pt : Frame} {i : TableIndex} {v w : VirtAddr}

/-- The present leaf of a page is found where its way ends, in any tables. -/
theorem presentLeaf?_eq (a : Arena) (v : VirtAddr) :
    presentLeaf? a v = (a.tableAt? v.way).bind fun pt =>
      if (a.cell pt v.leafIndex).isPresent then some (a.cell pt v.leafIndex) else none := by
  cases hpt : a.tableAt? v.way with
  | none =>
    obtain ⟨level, -, herror⟩ := leafTable_of_none hpt
    simp only [presentLeaf?, leaf, lookup_bind_error herror, Option.bind_none]
  | some pt =>
    have hbind : leaf a v = entry a pt v.leafIndex .pd := lookup_bind_ok (leafTable_of_some hpt)
    rw [presentLeaf?, hbind, Option.bind_some]
    by_cases hreach : a.reaches pt
    · simp only [entry_eq_ok hreach]
    · simp only [entry_of_not_reaches hreach]
      rw [if_neg fun hpresent => hreach (Arena.reaches_of_isPresent hpresent)]

/-- Pages resolve by their present leaves, in any tables. -/
theorem translate_eq_map (a : Arena) (v : VirtAddr) :
    translate a v = .ok ((presentLeaf? a v).map (physicalAddress · v)) := by
  rcases leaf_cases a v with ⟨level, -, hleaf⟩ | ⟨pt, -, -, hleaf⟩
  · simp only [translate, presentLeaf?, hleaf, Option.map_none]
  · simp only [translate, presentLeaf?, hleaf, apply_ite (Option.map _), Option.map_some,
      Option.map_none]

/-- A page keeps its leaf together with its last table and its entry there. -/
theorem presentLeaf?_of_kept (htable : b.tableAt? w.way = a.tableAt? w.way)
    (hcell : ∀ pt, a.tableAt? w.way = some pt → b.cell pt w.leafIndex = a.cell pt w.leafIndex) :
    presentLeaf? b w = presentLeaf? a w := by
  rw [presentLeaf?_eq, presentLeaf?_eq, htable]
  cases hpt : a.tableAt? w.way with
  | none => rfl
  | some pt => rw [Option.bind_some, Option.bind_some, hcell pt hpt]

/-- No page resolves through a table that was just linked. -/
theorem presentLeaf?_of_linked {way : List TableIndex} (hlinked : Arena.Linked a b f i g)
    (hgap : a.Gap way f i) (w : VirtAddr) : presentLeaf? b w = presentLeaf? a w := by
  have hlength := w.length_way
  have htable := hlinked.tableAt? hgap hlength.le
  split at htable
  · rename_i hnew
    have hcell := hlinked.cell_new hgap w.leafIndex
    rw [presentLeaf?_eq, presentLeaf?_eq, htable, hnew, hgap.missing, Option.bind_some, hcell,
      if_neg (by simp [Entry.isPresent_eq_bit]), Option.bind_none]
  · exact presentLeaf?_of_kept htable fun pt hpt => hlinked.keptLeaf hgap hlength hpt w.leafIndex

/-- What becomes of the frame that was handed out concerns no page before the frame is linked. -/
theorem presentLeaf?_of_handed (h : a.Tree) (halike : Arena.Alike a b)
    (hhanded : a.frames.Handed b.frames g) (hcell : ∀ t j, t ≠ g → b.cell t j = a.cell t j) :
    b.Tree ∧ ∀ w, presentLeaf? b w = presentLeaf? a w := by
  have hfresh : ∀ {way t}, way.length ≤ 3 → a.tableAt? way = some t → t ≠ g := by
    rintro way t hway ht rfl
    exact h.reserved hway ht hhanded.wasFree
  have hchild : ∀ way t, way.length < 3 → a.tableAt? way = some t →
      ∀ j, b.child? t j = a.child? t j :=
    fun way t hway ht j => Arena.child?_congr (hcell t j (hfresh hway.le ht))
  have hb : b.Tree := h.congr halike hchild fun way t hway ht hfree =>
    h.reserved hway ht (hhanded.isFree t hfree).1
  refine ⟨hb, fun w => presentLeaf?_of_kept ?_ fun pt hpt => ?_⟩
  · exact Arena.tableAt?_congr halike.root hchild w.length_way.le
  · exact hcell pt w.leafIndex (hfresh w.length_way.le hpt)

/-- Writing a leaf changes no other page. -/
theorem presentLeaf?_of_wrote {e : Entry} (h : a.Tree)
    (hwrote : Arena.Wrote a b pt v.leafIndex e) (hpt : a.tableAt? v.way = some pt)
    (hpage : w.page ≠ v.page) : presentLeaf? b w = presentLeaf? a w :=
  presentLeaf?_of_kept (hwrote.tableAt? h hpt v.length_way w.length_way.le)
    fun _ hpt' => hwrote.cell_of_page_ne h hpt hpage hpt'

end Trees

/-! ## Making tables -/

/-- Tables form a tree, the allocator is sound, and the cache remembers nothing wrong. -/
structure Regular (c : Cached Arena) : Prop where
  tree : c.memory.Tree
  sound : c.memory.frames.Sound
  faithful : c.Faithful ∅

/-- Accesses that drop nothing from the cache. -/
def Quiet (accesses : List Access) : Prop := ∀ w, Access.invalidate w ∉ accesses

/-- From `c` to `d` no leaf changed, and nothing was invalidated. -/
structure Built (c d : Cached Arena) : Prop where
  regular : Regular d
  leaves : ∀ w, presentLeaf? d.memory w = presentLeaf? c.memory w
  quiet : ∃ since, d.accesses = since ++ c.accesses ∧ Quiet since

variable {α β : Type} {c d u : Cached Arena} {a : Arena} {f g : Frame} {v : VirtAddr}
  {level : LinkLevel}

theorem quiet_nil : Quiet [] := fun _ => List.not_mem_nil

theorem Built.refl (h : Regular c) : Built c c :=
  ⟨h, fun _ => rfl, [], rfl, quiet_nil⟩

theorem Built.trans (h₁ : Built c d) (h₂ : Built d u) : Built c u := by
  obtain ⟨since₁, haccesses₁, hquiet₁⟩ := h₁.quiet
  obtain ⟨since₂, haccesses₂, hquiet₂⟩ := h₂.quiet
  refine ⟨h₂.regular, fun w => (h₂.leaves w).trans (h₁.leaves w), since₂ ++ since₁, ?_, ?_⟩
  · rw [haccesses₂, haccesses₁, List.append_assoc]
  · intro w hmem
    rcases List.mem_append.mp hmem with hmem | hmem
    · exact hquiet₂ w hmem
    · exact hquiet₁ w hmem

/-- A change that concerns no leaf. -/
theorem Built.next {accesses : List Access} (h : Regular c) (hquiet : Quiet accesses)
    (htree : a.Tree) (hsound : a.frames.Sound)
    (hleaves : ∀ w, presentLeaf? a w = presentLeaf? c.memory w) : Built c (c.next accesses a) :=
  ⟨⟨htree, hsound, h.faithful.next fun w _ => hleaves w⟩, hleaves, accesses, rfl, hquiet⟩

/-- A part of a call that builds on `c` and yields results of some kind, unless it fails. -/
def Builds (x : Walk (Cached Arena) α) (c : Cached Arena) (P : α → Cached Arena → Prop) : Prop :=
  ∃ r d, x c = .ok r d ∧ Built c d ∧ ∀ y, r = .ok y → P y d

theorem look_entry_cached (h : c.memory.reaches f) (i : TableIndex) :
    look (entry · f i level) c = .ok (.ok (c.memory.cell f i)) c := by
  have hentry : entry c f i level = .ok (.ok (c.memory.cell f i)) := entry_eq_ok h
  simp only [look, hentry]

theorem allocate_cached {r : Option Frame} {frames : FrameAllocator}
    (h : FrameAllocator.allocateFrame c.memory.frames = .ok r frames) :
    (liftM (TableMemory.allocateFrame : EStateM Halt (Cached Arena) (Option Frame)) :
      Walk (Cached Arena) (Option Frame)) c =
        .ok (.ok r) (c.next [] { c.memory with frames }) := by
  refine lift_ok ?_
  simp only [TableMemory.allocateFrame, Arena.allocateFrame, h]

theorem change_clear_cached (h : c.memory.fillTable? f .absent = some a) :
    change (TableMemory.clear · f) level c = .ok (.ok ()) (c.next [.clear f] a) := by
  refine change_ok ?_
  simp only [TableMemory.clear, h]
  rfl

theorem change_clear_refused (h : ¬ c.memory.reaches f) :
    change (TableMemory.clear · f) level c = .ok (.error (.invalidTable level)) c := by
  simp only [change, TableMemory.clear, Arena.fillTable?_eq_none h]
  rfl

theorem change_write_cached {i : TableIndex} {e : Entry} (h : c.memory.write? f i e = some a) :
    change (TableMemory.write · f i e) level c = .ok (.ok ()) (c.next [.write f i e] a) := by
  refine change_ok ?_
  simp only [TableMemory.write, h]
  rfl

/-- The next table of a page is followed or made, unless there is no frame for it, its frame is out
of reach or the entry cannot be followed. In the meantime no leaf changes. -/
theorem followOrMake_builds {way : List TableIndex} (h : Regular c)
    (hf : c.memory.tableAt? way = some f) (hlength : way.length < 3) :
    Builds (followOrMake v f level) c fun g d =>
      d.memory.tableAt? (level.index v :: way) = some g := by
  have hreach := h.tree.reached (by omega) hf
  have hchild := Arena.tableAt?_cons hf (level.index v)
  rw [Builds, followOrMake, bind_ok (look_entry_cached hreach _)]
  cases hpresent : (c.memory.cell f (level.index v)).isPresent with
  | true =>
    refine ⟨_, c, rfl, .refl h, fun g hg => ?_⟩
    have hoption := Arena.toOption_target (c.memory.cell f (level.index v)) level
    rw [hchild, Arena.child?, Arena.toOption_target, ← hoption, hg]
    rfl
  | false =>
    have hmissing := hchild.trans (Arena.child?_eq_none hpresent)
    rw [if_neg Bool.false_ne_true]
    rcases FrameAllocator.allocateFrame_handed h.sound with
      ⟨hnone, -⟩ | ⟨g, frames, hsome, hhanded⟩
    · rw [bind_ok (allocate_cached hnone)]
      exact ⟨_, _, rfl, .next h quiet_nil h.tree h.sound fun _ => rfl,
        fun _ hg => by contradiction⟩
    · rw [bind_ok (allocate_cached hsome)]
      obtain ⟨htree, hleaves⟩ := presentLeaf?_of_handed (b := { c.memory with frames }) h.tree
        ⟨rfl, rfl, rfl⟩ hhanded fun _ _ _ => rfl
      have hallocated : Built c (c.next [] { c.memory with frames }) :=
        .next h quiet_nil htree hhanded.sound hleaves
      by_cases hg : c.memory.reaches g
      · obtain ⟨b, e, hb, he, hbalike, hbframes, hbcell, hlinked⟩ :=
          exists_linked hreach hg hhanded (level.index v)
        obtain ⟨hbtree, hbleaves⟩ := presentLeaf?_of_handed h.tree hbalike (by rwa [hbframes])
          fun t j hne => by rw [hbcell, if_neg hne]
        have hcleared := hallocated.trans (.next hallocated.regular
          (show Quiet [.clear g] by simp [Quiet]) hbtree (by rw [hbframes]; exact hhanded.sound)
          fun w => (hbleaves w).trans (hleaves w).symm)
        have hgap := h.tree.gap hlength hf hmissing
        have hlinkedLeaves := presentLeaf?_of_linked hlinked hgap
        have hmade := hcleared.trans (.next hcleared.regular
          (show Quiet [.write f (level.index v) (.link g)] by simp [Quiet])
          (hlinked.tree h.tree hg hgap) hlinked.handed.sound
          fun w => (hlinkedLeaves w).trans (hbleaves w).symm)
        refine ⟨.ok g, _, ?_, hmade, fun g' hg' => ?_⟩
        · exact (bind_ok (change_clear_cached hb)).trans (bind_ok (change_write_cached he))
        · obtain rfl := Except.ok.inj hg'
          exact hlinked.tableAt?_new hgap
      · have hrefused : change (TableMemory.clear · g) level (c.next [] { c.memory with frames }) =
            .ok (.error (.invalidTable level)) (c.next [] { c.memory with frames }) :=
          change_clear_refused hg
        refine ⟨.error (.invalidTable level), _, bind_error hrefused, hallocated, fun _ hg' => ?_⟩
        simp at hg'

/-! ## Calls -/

/-- A look at the memory changes nothing. -/
theorem look_builds (h : Regular c) {q : Cached Arena → Lookup α} {r : Except PagingError α}
    (hq : q c = .ok r) : Builds (look q) c fun y d => c = d ∧ r = .ok y := by
  refine ⟨r, c, ?_, .refl h, fun y hy => ⟨rfl, hy⟩⟩
  simp only [look, hq]

/-- From `c` to `d` the leaf of a page was written and the page was invalidated right after it, as
the only one. -/
structure Settled (c d : Cached Arena) (v : VirtAddr) : Prop where
  regular : Regular d
  others : ∀ w : VirtAddr, w.page ≠ v.page → presentLeaf? d.memory w = presentLeaf? c.memory w
  accesses : ∃ pt e since, leafTable d.memory v = .ok (.ok pt) ∧ leaf d.memory v = .ok (.ok e) ∧
    d.accesses = .invalidate v :: .write pt v.leafIndex e :: (since ++ c.accesses) ∧ Quiet since

/-- What a call about a page does, by its result. -/
inductive Effect (c d : Cached Arena) (v : VirtAddr) : Except PagingError Unit → Prop
  | settled (h : Settled c d v) : Effect c d v (.ok ())
  | failed {error : PagingError} (h : Built c d) : Effect c d v (.error error)

/-- The rest of a call about a page comes to an end. -/
def Ends (x : Walk (Cached Arena) Unit) (c : Cached Arena) (v : VirtAddr) : Prop :=
  ∃ r d, x c = .ok r d ∧ Effect c d v r

theorem Built.settled (h : Built c d) (h' : Settled d u v) : Settled c u v := by
  obtain ⟨before, haccesses, hquiet⟩ := h.quiet
  obtain ⟨pt, e, since, hpt, hleaf, haccesses', hquiet'⟩ := h'.accesses
  refine ⟨h'.regular, fun w hw => (h'.others w hw).trans (h.leaves w), pt, e, since ++ before, hpt,
    hleaf, ?_, ?_⟩
  · rw [haccesses', haccesses, List.append_assoc]
  · intro w hmem
    rcases List.mem_append.mp hmem with hmem | hmem
    · exact hquiet' w hmem
    · exact hquiet w hmem

theorem Builds.ends {x : Walk (Cached Arena) α} {k : α → Walk (Cached Arena) Unit}
    {P : α → Cached Arena → Prop} (hx : Builds x c P)
    (hk : ∀ y d, Built c d → P y d → Ends (k y) d v) : Ends (x >>= k) c v := by
  obtain ⟨r, d, hrun, hbuilt, hP⟩ := hx
  cases r with
  | error error => exact ⟨.error error, d, bind_error hrun, .failed hbuilt⟩
  | ok y =>
    obtain ⟨r, u, hrest, heffect⟩ := hk y d hbuilt (hP y rfl)
    refine ⟨r, u, (bind_ok hrun).trans hrest, ?_⟩
    cases heffect with
    | settled h => exact .settled (hbuilt.settled h)
    | failed h => exact .failed (hbuilt.trans h)

/-- A call that gives up leaves behind what was built. -/
theorem throw_ends (h : Regular c) (error : PagingError) : Ends (throw error) c v :=
  ⟨.error error, c, rfl, .failed (.refl h)⟩

/-- Between the writing of a leaf and the invalidation of its page, the page may be remembered with
its old leaf or with its new one. -/
theorem writeLeaf_ends {pt : Frame} (h : Regular c) (hpt : c.memory.tableAt? v.way = some pt)
    (e : Entry) :
    Ends (do
      change (TableMemory.write · pt v.leafIndex e) .pd
      modify (TableMemory.invalidate · v)) c v := by
  have hreach := h.tree.reached v.length_way.le hpt
  obtain ⟨b, hb, hwrote, -⟩ := Arena.write?_eq_some hreach v.leafIndex e
  let written := c.next [.write pt v.leafIndex e] b
  let dropped := TableMemory.invalidate written v
  have hstale : written.Faithful {v.page} :=
    (h.faithful.mono (Set.empty_subset _)).next fun w hw =>
      presentLeaf?_of_wrote h.tree hwrote hpt hw
  have hinvalidating : (written.next [.invalidate v] (TableMemory.invalidate b v)).Faithful
      {v.page} := hstale.next fun _ _ => rfl
  have hfaithful : dropped.Faithful ∅ := hinvalidating.drop
  -- what was invalidated is noted beside the tables
  have hlast : Arena.Wrote c.memory dropped.memory pt v.leafIndex e :=
    ⟨⟨hwrote.alike.base, hwrote.alike.count, hwrote.alike.root⟩, hwrote.frames, hwrote.cell⟩
  have htree := hlast.tree h.tree hpt v.length_way
  have htable : dropped.memory.tableAt? v.way = some pt :=
    (hlast.tableAt? h.tree hpt v.length_way v.length_way.le).trans hpt
  have hleaf : leaf dropped.memory v = .ok (.ok e) := by
    rw [leaf, lookup_bind_ok (leafTable_of_some htable),
      entry_eq_ok (htree.reached v.length_way.le htable), hlast.cell, if_pos ⟨rfl, rfl⟩]
  refine ⟨.ok (), dropped, bind_ok (change_write_cached hb), .settled ⟨⟨htree, ?_, hfaithful⟩,
    fun w hw => presentLeaf?_of_wrote h.tree hlast hpt hw, pt, e, [],
    leafTable_of_some htable, hleaf, rfl, quiet_nil⟩⟩
  rw [hlast.frames]
  exact h.sound

theorem map_ends (h : Regular c) (p : PhysAddr) (attributes : UInt64) :
    Ends (map v p attributes) c v := by
  obtain ⟨pml4, hroot⟩ := h.tree.rooted
  have hlook : rootTable c = .ok (.ok pml4) := rootTable_eq_ok hroot (h.tree.root_reached hroot)
  unfold map
  split
  · exact throw_ends h _
  · refine (look_builds h hlook).ends ?_
    rintro f _ - ⟨rfl, heq⟩
    obtain rfl := Except.ok.inj heq
    have h₀ : c.memory.tableAt? [] = some pml4 := hroot
    refine (followOrMake_builds h h₀ (by simp)).ends fun pdpt c₁ hbuilt₁ h₁ => ?_
    refine (followOrMake_builds hbuilt₁.regular h₁ (by simp)).ends fun pd c₂ hbuilt₂ h₂ => ?_
    refine (followOrMake_builds hbuilt₂.regular h₂ (by simp)).ends fun pt c₃ hbuilt₃ h₃ => ?_
    have hreach := hbuilt₃.regular.tree.reached v.length_way.le h₃
    refine (look_builds hbuilt₃.regular (entry_eq_ok hreach)).ends ?_
    rintro e _ - ⟨rfl, -⟩
    split
    · exact throw_ends hbuilt₃.regular _
    · exact writeLeaf_ends hbuilt₃.regular h₃ _

theorem unmap_ends (h : Regular c) : Ends (unmap v) c v := by
  unfold unmap
  split
  · exact throw_ends h _
  · cases hpt : c.memory.tableAt? v.way with
    | none =>
      obtain ⟨level, -, herror⟩ := leafTable_of_none hpt
      refine (look_builds h herror).ends ?_
      rintro pt _ - ⟨-, heq⟩
      contradiction
    | some pt =>
      refine (look_builds h (leafTable_of_some hpt)).ends ?_
      rintro f _ - ⟨rfl, heq⟩
      obtain rfl := Except.ok.inj heq
      have hreach := h.tree.reached v.length_way.le hpt
      refine (look_builds h (entry_eq_ok hreach)).ends ?_
      rintro e _ - ⟨rfl, -⟩
      split
      · exact writeLeaf_ends h hpt _
      · exact throw_ends h _

/-! ## Runs -/

/-- The address that a call is about. -/
def Call.address : Call → VirtAddr
  | .map v _ _ | .unmap v | .translate v => v

/-- Every call comes to an end, having settled its page or changed no leaf at all. -/
theorem Regular.call (h : Regular c) (call : Call) :
    ∃ answer d, call.onTables c = .ok answer d ∧
      (answer = .changed (.ok ()) ∧ Settled c d call.address ∨
        answer ≠ .changed (.ok ()) ∧ Built c d) := by
  have hends : ∀ {x : Walk (Cached Arena) Unit}, Ends x c call.address →
      ∃ answer d, (Answer.changed <$> x.run) c = .ok answer d ∧
        (answer = .changed (.ok ()) ∧ Settled c d call.address ∨
          answer ≠ .changed (.ok ()) ∧ Built c d) := by
    rintro x ⟨r, d, hrun, heffect⟩
    refine ⟨.changed r, d, by simp only [Functor.map, EStateM.map, ExceptT.run, hrun], ?_⟩
    cases heffect with
    | settled h => exact .inl ⟨rfl, h⟩
    | failed h => exact .inr ⟨by simp, h⟩
  cases call with
  | map v p attributes => exact hends (map_ends h p attributes)
  | unmap v => exact hends (unmap_ends h)
  | translate v =>
    have hp : translate c v = _ := translate_eq_map c.memory v
    exact ⟨_, c, by simp only [Call.onTables, hp]; rfl, .inr ⟨by simp, .refl h⟩⟩

namespace Cached

/-- What calls and the cache itself make of a memory. Whatever the cache does in the middle of a
call is in the schedule that the call begins with. -/
inductive Run {σ : Type} [TableMemory σ] (start : Cached σ) : Cached σ → Prop
  | start : Run start start
  | event {c : Cached σ} (run : Run start c) (event : CacheEvent) :
      Run start { c with cache := event.apply c.memory c.cache }
  | call {c d : Cached σ} {answer : Answer PagingError} (run : Run start c) (call : Call)
      (schedule : List (List CacheEvent))
      (done : call.onTables { c with schedule } = .ok answer d) : Run start d

theorem Run.regular {start : Cached Arena} (h : Run start c) (hstart : Regular start) :
    Regular c := by
  induction h with
  | start => exact hstart
  | event run event ih => exact ⟨ih.tree, ih.sound, ih.faithful.event event⟩
  | @call b _ _ _ call schedule done ih =>
    have hscheduled : Regular { b with schedule } := ⟨ih.tree, ih.sound, ih.faithful⟩
    obtain ⟨answer, d, hcall, heffect⟩ := hscheduled.call call
    rw [hcall] at done
    obtain ⟨-, rfl⟩ := EStateM.Result.ok.inj done
    rcases heffect with ⟨-, h⟩ | ⟨-, h⟩
    · exact h.regular
    · exact h.regular

/-- No translation outlives its leaf. The tables form a tree; pages are mapped and unmapped with any
arguments and any success, and at any moment the processor remembers the leaf of some page that
resolves, or forgets one. Between calls, what is remembered of a page is what its address and flags
are now. A call that succeeds writes the leaf of its page and invalidates the page right after that,
and only then; all other pages keep their leaves. A call that does not succeed invalidates nothing,
and all pages keep their leaves. -/
theorem Run.no_stale_translation (htree : a.Tree) (hsound : a.frames.Sound)
    (hrun : Run (.cold a) c) :
    (∀ (w : VirtAddr) (e : Entry), c.cache w.page = some e → presentLeaf? c.memory w = some e ∧
        translate c.memory w = .ok (some (physicalAddress e w)) ∧
        leafFlags c.memory w = .ok (some e.flags)) ∧
      ∀ (call : Call) (schedule : List (List CacheEvent)),
        ∃ answer d, call.onTables { c with schedule } = .ok answer d ∧
          (answer = .changed (.ok ()) →
            (∃ pt e since, leafTable d.memory call.address = .ok (.ok pt) ∧
              leaf d.memory call.address = .ok (.ok e) ∧
              d.accesses = .invalidate call.address :: .write pt call.address.leafIndex e ::
                (since ++ c.accesses) ∧ ∀ v, .invalidate v ∉ since) ∧
            ∀ w : VirtAddr, w.page ≠ call.address.page →
              presentLeaf? d.memory w = presentLeaf? c.memory w) ∧
          (answer ≠ .changed (.ok ()) →
            (∃ since, d.accesses = since ++ c.accesses ∧ ∀ v, .invalidate v ∉ since) ∧
            ∀ w, presentLeaf? d.memory w = presentLeaf? c.memory w) := by
  have hregular : Regular c := hrun.regular ⟨htree, hsound, fun _ _ _ he => by contradiction⟩
  refine ⟨fun w e he => ?_, fun call schedule => ?_⟩
  · have hleaf := hregular.faithful w (Set.notMem_empty _) e he
    exact ⟨hleaf, translate_eq_some.mpr ⟨e, hleaf, rfl⟩, leafFlags_of_presentLeaf? hleaf⟩
  · have hscheduled : Regular { c with schedule } :=
      ⟨hregular.tree, hregular.sound, hregular.faithful⟩
    obtain ⟨answer, d, hcall, heffect⟩ := hscheduled.call call
    refine ⟨answer, d, hcall, fun hok => ?_, fun hfailed => ?_⟩
    · rcases heffect with ⟨-, h⟩ | ⟨hfailed, -⟩
      · exact ⟨h.accesses, h.others⟩
      · exact absurd hok hfailed
    · rcases heffect with ⟨hok, -⟩ | ⟨-, h⟩
      · exact absurd hok hfailed
      · exact ⟨h.quiet, h.leaves⟩

/-- What a call does to the tables is what it does without a cache. -/
theorem call_eq_ok {σ : Type} [TableMemory σ] {c : Cached σ} {call : Call}
    {answer : Answer PagingError} {m : σ} (h : call.onTables c.memory = .ok answer m) :
    ∃ d, call.onTables c = .ok answer d ∧ d.memory = m := by
  have hboth := simulates.call call c.memory c rfl
  rw [h] at hboth
  generalize call.onTables c = r at hboth ⊢
  cases hboth with
  | done _ related => exact ⟨_, rfl, related⟩

/-- A page is mapped, and remembered before it is invalidated and once more after the call. -/
theorem Run.no_stale_translation_of_remembered_page :
    ∃ (a : Arena) (c : Cached Arena) (e : Entry), a.Tree ∧ a.frames.Sound ∧ Run (.cold a) c ∧
      c.cache (VirtAddr.page ⟨0x40001000, by decide⟩) = some e ∧
      translate c.memory ⟨0x40001234, by decide⟩ =
        .ok (some (physicalAddress e ⟨0x40001234, by decide⟩)) := by
  obtain ⟨new, hnew⟩ : ∃ new, FrameAllocator.ofBuffer ⟨⟨0x200000, by decide⟩, 0x4000⟩
      ⟨⟨0x1000, by decide⟩, 1⟩ ⟨#[0xff]⟩ = .ok new := ⟨_, rfl⟩
  obtain ⟨a, hbegins, hcount⟩ := exists_begins hnew (by decide)
  have hfree : a.frames.free = 3 := Nat.succ.inj hcount
  obtain ⟨used, r, hbeginning, -⟩ := hbegins.beginning
  have hwell := hbeginning.wellFormed
  let v : VirtAddr := ⟨0x40001000, by decide⟩
  let call : Call := .map v ⟨0x80002000, by decide⟩ 0
  obtain ⟨b, hok⟩ : ∃ b, map v ⟨0x80002000, by decide⟩ 0 a = .ok (.ok ()) b :=
    (hbeginning.agrees.map_eq_ok_iff hwell v ⟨0x80002000, by decide⟩ 0).mpr
      ⟨rfl, by decide, rfl, (a.missing_le_length _).trans (by rw [VirtAddr.length_way]; omega)⟩
  have hplain : call.onTables a = .ok (.changed (.ok ())) b := by
    simp only [call, Call.onTables, Functor.map, EStateM.map, ExceptT.run, hok]
  obtain ⟨c, hcall, rfl⟩ := call_eq_ok
    (c := { cold a with schedule := List.replicate 10 [] ++ [[.fill v]] }) hplain
  -- the page resolves in the end, as the page map says
  have hmapped : Paging.Run a [(.map v ⟨0x80002000, by decide⟩ 0, .ok ())] c.memory :=
    .next .start trivial hok
  obtain ⟨hb, hagrees⟩ := hmapped.agrees hwell hbeginning.agrees
  obtain ⟨p, hp, hresolve⟩ := hagrees.translate hb.tree v
  have hsome : (PageMap.ofTrace [(.map v ⟨0x80002000, by decide⟩ 0, .ok ())]).resolve v =
      some 0x80002000 := by decide
  obtain ⟨q, rfl, -⟩ := Option.map_eq_some_iff.mp (hresolve.trans hsome)
  obtain ⟨e, he, -⟩ := translate_eq_some.mp hp
  have hrun : Run (.cold a) { c with cache := (CacheEvent.fill v).apply c.memory c.cache } :=
    (Run.start.call call _ hcall).event (.fill v)
  have hentry : (CacheEvent.fill v).apply c.memory c.cache v.page = some e := by
    simp only [CacheEvent.apply, he, Function.update_self]
  obtain ⟨hcache, -⟩ := hrun.no_stale_translation hwell.tree hwell.sound
  have hpage : VirtAddr.page ⟨0x40001234, by decide⟩ = v.page := by decide
  exact ⟨a, _, e, hwell.tree, hwell.sound, hrun, hentry,
    (hcache ⟨0x40001234, by decide⟩ e ((congrArg _ hpage).trans hentry)).2.1⟩

end Cached

end Paging

end KernelCore
