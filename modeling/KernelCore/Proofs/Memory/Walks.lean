import KernelCore.Machine.MemoryManager
import KernelCore.Proofs.Memory.Holdings
import KernelCore.Proofs.Paging.Walk

/-!
# Walks over the loaded tables

Mapping and unmapping never fault on a hierarchy that lies apart from the bitmap and from the frames
of clients. They ask the allocator for frames one by one, and write only to tables and to the frames
they were given. `Keeps` is the specification that all parts of a walk share; `Keeps.bind` puts the
parts together.
-/

namespace KernelCore

open FrameAllocator Machine

namespace Holding

variable {L : Layout} {s s' u : Holding L} {fs gs : List Frame}

/-- What happens to the ledger and to the contents of frames that are held when the mapper is handed
the frames `fs`. -/
structure Kept (s : Holding L) (fs : List Frame) (s' : Holding L) : Prop where
  held : s'.held = s.held
  made : s'.made = s.made ∪ addresses fs
  handsOut : HandsOut s.allocator fs s'.allocator
  contents : ∀ x ∈ bytesOf s.held, s'.machine.physical L.map x = s.machine.physical L.map x

theorem Kept.refl (s : Holding L) : Kept s [] s := by
  refine ⟨rfl, ?_, .nil _, fun _ _ => rfl⟩
  simp [addresses]

theorem Kept.trans (h : Kept s fs s') (h' : Kept s' gs u) : Kept s (fs ++ gs) u := by
  refine ⟨h'.held.trans h.held, ?_, h.handsOut.append h'.handsOut, fun x hx => ?_⟩
  · rw [h'.made, h.made, addresses_append, Set.union_assoc]
  · have hlater := h'.contents x (by rw [h.held]; exact hx)
    exact hlater.trans (h.contents x hx)

/-- A frame that is handed out was neither held nor a table. -/
theorem exists_kept_take {f : Frame} {b : FrameAllocator}
    (hok : allocateFrame s.allocator = .ok (some f) b) :
    ∃ s' : Holding L, s'.machine = s.machine.storing s.resident b ∧ Kept s [f] s' ∧
      (∀ d g, s'.machine.TableAt d g ↔ s.machine.TableAt d g) ∧ L.IsFrame f.base.val ∧
      f.base.val ∉ s.held ∧ f.base.val ∈ s'.made ∧ ∀ d, ¬ s.machine.TableAt d f := by
  have hout : HandsOut s.allocator [f] b := .cons hok (.nil b)
  obtain ⟨hb, hplace, hlent, hapart⟩ := hout.lent s.sound
  have hf : f.base.val ∈ addresses [f] := ⟨f, by simp, rfl⟩
  have hfresh : f.base.val ∉ s.allocator.lent := Set.disjoint_right.mp hapart hf
  have hunion : s.allocator.lent = s.held ∪ s.made := s.ledger
  have hledger : b.lent = s.held ∪ (s.made ∪ addresses [f]) := by
    rw [hlent, hunion, Set.union_assoc]
  have hdisjoint : Disjoint s.held (s.made ∪ addresses [f]) := by
    rw [hunion] at hapart
    exact Set.disjoint_union_right.mpr ⟨s.apart, hapart.mono_left Set.subset_union_left⟩
  let s' := s.storing hplace hb s.held (s.made ∪ addresses [f]) hledger hdisjoint
    Set.subset_union_left
  have hallocator : s'.allocator = b := s.allocator_storing hplace hb _ _ _
  have hframe : L.IsFrame f.base.val := by
    have hmem : f.base.val ∈ s'.allocator.lent := by
      rw [hallocator, hlent]
      exact .inr hf
    exact s'.isFrame_of_lent hmem
  refine ⟨s', rfl, ⟨rfl, rfl, ?_, fun x hx => ?_⟩, fun d g => s.tableAt_storing hplace, hframe,
    ?_, .inr hf, fun d hd => hfresh (s.mem_lent_of_table hd hframe)⟩
  · rw [hallocator]
    exact hout
  · exact s.physical_storing hplace (s.heldBytes_subset hx) (s.held_disjoint_bitmap hx)
  · intro hheld
    apply hfresh
    rw [hunion]
    exact .inl hheld

/-- Being refused a frame is no change to the ledger. -/
theorem exists_kept_refused (s : Holding L) : ∃ s' : Holding L,
    s'.machine = s.machine.storing s.resident s.allocator ∧ Kept s [] s' := by
  let s' := s.storing (.refl _) s.sound s.held s.made s.ledger s.apart subset_rfl
  have hallocator : s'.allocator = s.allocator := s.allocator_storing (.refl _) s.sound _ _ _
  refine ⟨s', rfl, rfl, ?_, ?_, fun x hx => ?_⟩
  · simp [s', storing, addresses]
  · rw [hallocator]
    exact .nil _
  · exact s.physical_storing (.refl _) (s.heldBytes_subset hx) (s.held_disjoint_bitmap hx)

section Touches

variable {m' : Machine} {t : Frame} (h : Touches L.map t s.machine m')

include h

/-- A write to a frame that no client holds, with the tables still where they may be. -/
theorem exists_kept_touching (hram : t.bytes ⊆ L.ram) (hb : Disjoint t.bytes L.bitmapBytes)
    (hheld : t.base.val ∉ s.held)
    (tables : ∀ d f, m'.TableAt d f → f.bytes ⊆ L.ram ∧ Disjoint f.bytes L.bitmapBytes ∧
      (L.IsFrame f.base.val → f.base.val ∈ s.made))
    (graded : ∀ d e f, m'.TableAt d f → m'.TableAt e f → d = e) :
    ∃ s' : Holding L, s'.machine = m' ∧ Kept s [] s' := by
  have hallocator : s.resident.load m'.memory = s.allocator := s.load_touches h hram hb
  refine ⟨s.touching h hram hb tables graded, rfl, rfl, ?_, ?_, fun x hx => ?_⟩
  · simp [touching, addresses]
  · change HandsOut s.allocator [] (s.resident.load m'.memory)
    rw [hallocator]
    exact .nil _
  · exact s.sees.physical_eq hram h.outside (s.heldBytes_subset hx) (s.notMem_heldBytes hheld hx)

/-- A frame of the mapper that is no table yet may be written in any way. -/
theorem exists_kept_fresh (hpool : L.IsFrame t.base.val) (hheld : t.base.val ∉ s.held)
    (hnew : ∀ d, ¬ s.machine.TableAt d t) :
    ∃ s' : Holding L, s'.machine = m' ∧ Kept s [] s' ∧
      ∀ d f, s'.machine.TableAt d f ↔ s.machine.TableAt d f := by
  have hsame : ∀ d f, m'.TableAt d f ↔ s.machine.TableAt d f :=
    fun _ _ => s.tableAt_touches h hpool.bytes_subset hnew
  obtain ⟨s', rfl, hkept⟩ := exists_kept_touching h hpool.bytes_subset hpool.disjoint hheld
    (fun d f hf => s.tables d f ((hsame d f).mp hf))
    (fun d e f hd he => s.graded d e f ((hsame d f).mp hd) ((hsame e f).mp he))
  exact ⟨s', rfl, hkept, hsame⟩

/-- Any leaf may be written into a table of the last level. -/
theorem exists_kept_leaf (ht : s.machine.TableAt 3 t) :
    ∃ s' : Holding L, s'.machine = m' ∧ Kept s [] s' := by
  have hsub : ∀ d f, m'.TableAt d f → s.machine.TableAt d f :=
    fun _ _ => s.tableAt_of_touches_last h ht
  obtain ⟨hram, hb, -⟩ := s.tables 3 t ht
  exact exists_kept_touching h hram hb (s.notMem_held ht)
    (fun d f hf => s.tables d f (hsub d f hf))
    (fun d e f hd he => s.graded d e f (hsub d f hd) (hsub e f he))

/-- An empty frame of the mapper becomes a table when it is linked. -/
theorem exists_kept_link {g : Frame} {d : ℕ} {i : TableIndex} (ht : s.machine.TableAt d t)
    (hlt : d < 3)
    (hread : ∀ j, m'.readEntry t j = if j = i then .ok (some (.link g))
      else s.machine.readEntry t j)
    (habsent : ∀ e, s.machine.readEntry t i = .ok (some e) → e.isPresent = false)
    (hempty : ∀ j, s.machine.readEntry g j = .ok (some .absent))
    (hpool : L.IsFrame g.base.val) (hmade : g.base.val ∈ s.made)
    (hnew : ∀ d, ¬ s.machine.TableAt d g) :
    ∃ s' : Holding L, s'.machine = m' ∧ Kept s [] s' ∧ s'.machine.TableAt (d + 1) g := by
  have hcases : ∀ e f, m'.TableAt e f → s.machine.TableAt e f ∨ e = d + 1 ∧ f = g :=
    fun e f => s.tableAt_of_link h ht hread hnew hempty hpool.bytes_subset
  obtain ⟨hram, hb, -⟩ := s.tables d t ht
  obtain ⟨s', rfl, hkept⟩ := exists_kept_touching h hram hb (s.notMem_held ht) (fun e f hf => by
    cases hcases e f hf with
    | inl hold => exact s.tables e f hold
    | inr hg =>
      obtain ⟨-, rfl⟩ := hg
      exact ⟨hpool.bytes_subset, hpool.disjoint, fun _ => hmade⟩) (fun e e' f he he' => by
    rcases hcases e f he with hold | ⟨rfl, rfl⟩ <;> rcases hcases e' f he' with hold' | ⟨rfl, hg⟩
    · exact s.graded e e' f hold hold'
    · exact absurd (hg ▸ hold) (hnew e)
    · exact absurd hold' (hnew e')
    · rfl)
  have habove := s.tableAt_link h ht hread habsent ht
  have hlink : s'.machine.readEntry t i = .ok (some (.link g)) := by rw [hread, if_pos rfl]
  have htable := TableAt.link habove hlt hlink (Entry.isPresent_link g) (Entry.isHuge_link g)
  rw [Entry.address_link, Frame.containing_base] at htable
  exact ⟨s', rfl, hkept, htable⟩

end Touches

/-- What is shown and what is recorded of the hardware does not matter. -/
theorem exists_kept_quiet (s : Holding L) (console : Console) (events : List HardwareEvent) :
    ∃ s' : Holding L, s'.machine = { s.machine with console, events } ∧ Kept s [] s' := by
  have hsame : ∀ d f, TableAt { s.machine with console, events } d f ↔ s.machine.TableAt d f :=
    fun _ _ => tableAt_congr rfl fun _ _ _ _ => rfl
  refine ⟨{ s with
    machine := { s.machine with console, events }
    lends := ⟨s.lends.frames, rfl, s.lends.sound⟩
    sees := ⟨s.sees.mapper, s.sees.reaches⟩
    tables := fun d f hf => s.tables d f ((hsame d f).mp hf)
    graded := fun d e f hd he => s.graded d e f ((hsame d f).mp hd) ((hsame e f).mp he) }, rfl, ?_⟩
  exact ⟨rfl, by simp [addresses], .nil _, fun _ _ => rfl⟩

end Holding

namespace Paging

open Holding

variable {L : Layout} {s : Holding L} {α β : Type} {d k n : ℕ} {t : Frame} {v : VirtAddr}
  {level : LinkLevel}

/-- The walk comes to an end and asks for no more than `n` frames. It leaves clients alone, and
`post` holds of what it yields. -/
def Keeps (n : ℕ) (s : Holding L) (x : Walk Machine α) (post : α → Holding L → Prop) : Prop :=
  ∃ r s' fs, x s.machine = .ok r s'.machine ∧ Kept s fs s' ∧ fs.length ≤ n ∧
    ∀ y, r = .ok y → post y s'

theorem Keeps.bind {x : Walk Machine α} {f : α → Walk Machine β} {P : α → Holding L → Prop}
    {Q : β → Holding L → Prop} (hx : Keeps n s x P) (hf : ∀ y s', P y s' → Keeps k s' (f y) Q) :
    Keeps (n + k) s (x >>= f) Q := by
  obtain ⟨r, s', fs, hrun, hkept, hlength, hpost⟩ := hx
  cases r with
  | error e => exact ⟨.error e, s', fs, bind_error hrun, hkept, by omega, by simp⟩
  | ok y =>
    obtain ⟨r, u, gs, hrun', hkept', hlength', hpost'⟩ := hf y s' (hpost y rfl)
    refine ⟨r, u, fs ++ gs, (bind_ok hrun).trans hrun', hkept.trans hkept', ?_, hpost'⟩
    rw [List.length_append]
    omega

theorem keeps_pure {P : α → Holding L → Prop} {y : α} (h : P y s) : Keeps n s (pure y) P := by
  refine ⟨.ok y, s, [], rfl, .refl s, by simp, ?_⟩
  rintro z hz
  obtain rfl := Except.ok.inj hz
  exact h

theorem keeps_throw (e : PagingError) (P : α → Holding L → Prop) : Keeps n s (throw e) P :=
  ⟨.error e, s, [], rfl, .refl s, by simp, by simp⟩

theorem keeps_look {q : Machine → Lookup α} {r : Except PagingError α}
    (h : q s.machine = .ok r) : Keeps n s (look q) fun y s' => s' = s ∧ r = .ok y := by
  refine ⟨r, s, [], ?_, .refl s, by simp, fun y hy => ⟨rfl, hy⟩⟩
  rw [look, h]

/-! ## Parts of a walk -/

theorem exists_entry (ht : s.machine.TableAt d t) (i : TableIndex) (level : LinkLevel) :
    ∃ r, entry s.machine t i level = .ok r ∧
      ∀ e, r = .ok e → s.machine.readEntry t i = .ok (some e) := by
  have hread := s.sees.readEntry_eq (s.tables d t ht).1 i
  have hsame : TableMemory.read s.machine t i = s.machine.readEntry t i := rfl
  rw [entry, hsame, hread]
  split
  · contradiction
  · exact ⟨.error (.invalidTable level), rfl, by simp⟩
  · rename_i e he
    refine ⟨.ok e, rfl, fun e' he' => ?_⟩
    rw [he, Except.ok.inj he']

theorem exists_rootTable (s : Holding L) :
    ∃ r, rootTable s.machine = .ok r ∧ ∀ t, r = .ok t → s.machine.TableAt 0 t := by
  have hread := s.sees.tableAddress?_eq (s.tables 0 _ .top).1
  have hholds : TableMemory.holds s.machine s.machine.topTable =
      (s.machine.tableAddress? s.machine.topTable).map Option.isSome := rfl
  have hroot : TableMemory.root s.machine = some s.machine.topTable := rfl
  rw [hread] at hholds
  simp only [rootTable, hroot, hholds, Except.map]
  split
  · exact ⟨.error (.invalidTable .pml4), rfl, by simp⟩
  · refine ⟨.ok _, rfl, fun t ht => ?_⟩
    rw [← Except.ok.inj ht]
    exact .top

theorem tableAt_target {i : TableIndex} {e : Entry} (ht : s.machine.TableAt d t) (hd : d < 3)
    (he : s.machine.readEntry t i = .ok (some e)) {g : Frame} (hg : target e level = .ok g) :
    s.machine.TableAt (d + 1) g := by
  rw [target] at hg
  split at hg
  · rename_i hlink
    rw [Bool.and_eq_true, Bool.not_eq_true'] at hlink
    rw [← Except.ok.inj hg]
    exact .link ht hd he hlink.1 hlink.2
  · contradiction

theorem exists_follow (ht : s.machine.TableAt d t) (hd : d < 3) (v : VirtAddr)
    (level : LinkLevel) : ∃ r, follow s.machine v t level = .ok r ∧
      ∀ g, r = .ok g → s.machine.TableAt (d + 1) g := by
  obtain ⟨r, hentry, hread⟩ := exists_entry ht (level.index v) level
  cases r with
  | error e => exact ⟨.error e, lookup_bind_error hentry, by simp⟩
  | ok e =>
    exact ⟨target e level, lookup_bind_ok hentry,
      fun g hg => tableAt_target ht hd (hread e rfl) hg⟩

theorem exists_leafTable (s : Holding L) (v : VirtAddr) :
    ∃ r, leafTable s.machine v = .ok r ∧ ∀ t, r = .ok t → s.machine.TableAt 3 t := by
  obtain ⟨r₀, hroot, hr₀⟩ := exists_rootTable s
  cases r₀ with
  | error e => exact ⟨.error e, lookup_bind_error hroot, by simp⟩
  | ok pml4 =>
    obtain ⟨r₁, hpdpt, hr₁⟩ := exists_follow (hr₀ pml4 rfl) (by decide) v .pml4
    rw [leafTable, lookup_bind_ok hroot]
    cases r₁ with
    | error e => exact ⟨.error e, lookup_bind_error hpdpt, by simp⟩
    | ok pdpt =>
      obtain ⟨r₂, hpd, hr₂⟩ := exists_follow (hr₁ pdpt rfl) (by decide) v .pdpt
      rw [lookup_bind_ok hpdpt]
      cases r₂ with
      | error e => exact ⟨.error e, lookup_bind_error hpd, by simp⟩
      | ok pd =>
        rw [lookup_bind_ok hpd]
        exact exists_follow (hr₂ pd rfl) (by decide) v .pd

theorem exists_translate (s : Holding L) (v : VirtAddr) : ∃ p, translate s.machine v = .ok p := by
  obtain ⟨r, hleaf⟩ : ∃ r, leaf s.machine v = .ok r := by
    obtain ⟨r, htable, hr⟩ := exists_leafTable s v
    cases r with
    | error e => exact ⟨.error e, lookup_bind_error htable⟩
    | ok pt =>
      obtain ⟨r, hentry, -⟩ := exists_entry (hr pt rfl) v.leafIndex .pd
      exact ⟨r, (lookup_bind_ok htable).trans hentry⟩
  rw [translate, hleaf]
  cases r with
  | error e => exact ⟨_, rfl⟩
  | ok e => exact ⟨_, rfl⟩

theorem lift_eq_ok {σ : Type} {x : EStateM Halt σ α} {m m' : σ} {y : α} (h : x m = .ok y m') :
    (liftM x : Walk σ α) m = .ok (.ok y) m' := by
  simp only [liftM, monadLift, MonadLift.monadLift, ExceptT.lift, ExceptT.mk, Functor.map,
    EStateM.map, h]

/-- A frame that the mapper was handed and that is no table yet. -/
structure Fresh (s : Holding L) (g : Frame) : Prop where
  pool : L.IsFrame g.base.val
  notHeld : g.base.val ∉ s.held
  made : g.base.val ∈ s.made
  unlinked : ∀ d, ¬ s.machine.TableAt d g

theorem keeps_allocateFrame (ht : s.machine.TableAt d t) (i : TableIndex) :
    Keeps 1 s (liftM (TableMemory.allocateFrame : EStateM Halt Machine (Option Frame)))
      fun f s' => s'.machine.TableAt d t ∧
        s'.machine.readEntry t i = s.machine.readEntry t i ∧ ∀ g, f = some g → Fresh s' g := by
  have hlift : ∀ {f b}, FrameAllocator.allocateFrame s.allocator = .ok f b →
      (liftM (TableMemory.allocateFrame : EStateM Halt Machine (Option Frame)) :
        Walk Machine (Option Frame)) s.machine = .ok (.ok f) (s.machine.storing s.resident b) := by
    intro f b hf
    have hok : (TableMemory.allocateFrame : EStateM Halt Machine (Option Frame)) s.machine =
        .ok f (s.machine.storing s.resident b) := Kernel.allocateFrame_eq_ok s.lends hf
    exact lift_eq_ok hok
  rcases allocateFrame_handed s.sound with ⟨hnone, -⟩ | ⟨g, b, hsome, -⟩
  · obtain ⟨s', hs', hkept⟩ := exists_kept_refused s
    refine ⟨.ok none, s', [], ?_, hkept, by simp, ?_⟩
    · rw [hs']
      exact hlift hnone
    · rintro f hf
      obtain rfl := Except.ok.inj hf
      rw [hs', s.tableAt_storing (.refl _), s.readEntry_storing (.refl _) ht]
      exact ⟨ht, rfl, by simp⟩
  · obtain ⟨s', hs', hkept, htables, hpool, hheld, hmade, hnew⟩ := exists_kept_take hsome
    refine ⟨.ok (some g), s', [g], ?_, hkept, by simp, ?_⟩
    · rw [hs']
      exact hlift hsome
    · rintro f hf
      obtain rfl := Except.ok.inj hf
      refine ⟨(htables d t).mpr ht, ?_, ?_⟩
      · rw [hs']
        exact s.readEntry_storing (samePlace_allocateFrame s.sound hsome) ht i
      · rintro f hf
        obtain rfl := Option.some.inj hf
        exact ⟨hpool, hkept.held ▸ hheld, hmade, fun d hd => hnew d ((htables d g).mp hd)⟩

theorem keeps_clear {g : Frame} (ht : s.machine.TableAt d t) (hg : Fresh s g) (i : TableIndex)
    (level : LinkLevel) :
    Keeps 0 s (change (TableMemory.clear · g) level) fun _ s' => s'.machine.TableAt d t ∧
      s'.machine.readEntry t i = s.machine.readEntry t i ∧ Fresh s' g ∧
      ∀ j, s'.machine.readEntry g j = .ok (some .absent) := by
  have hclear : TableMemory.clear s.machine g = s.machine.clearTable g := rfl
  rcases s.sees.clearTable_cases hg.pool.bytes_subset with hnone | ⟨m', hsome, htouches, hempty⟩
  · refine ⟨.error (.invalidTable level), s, [], ?_, .refl s, by simp, by simp⟩
    rw [change, hclear, hnone]
  · obtain ⟨s', rfl, hkept, htables⟩ := exists_kept_fresh htouches hg.pool hg.notHeld hg.unlinked
    refine ⟨.ok (), s', [], ?_, hkept, by simp, fun _ _ => ⟨(htables d t).mpr ht, ?_, ?_, hempty⟩⟩
    · rw [change, hclear, hsome]
    · apply htouches.readEntry_of_ne s.sees hg.pool.bytes_subset (s.tables d t ht).1
      rintro rfl
      exact hg.unlinked d ht
    · exact ⟨hg.pool, hkept.held ▸ hg.notHeld, by simpa [hkept.made] using .inl hg.made,
        fun d hd => hg.unlinked d ((htables d g).mp hd)⟩

theorem keeps_link {g : Frame} {i : TableIndex} (ht : s.machine.TableAt d t) (hd : d < 3)
    (hg : Fresh s g) (hempty : ∀ j, s.machine.readEntry g j = .ok (some .absent))
    (habsent : ∀ e, s.machine.readEntry t i = .ok (some e) → e.isPresent = false)
    (level : LinkLevel) :
    Keeps 0 s (change (TableMemory.write · t i (.link g)) level)
      fun _ s' => s'.machine.TableAt (d + 1) g := by
  have hwrite : TableMemory.write s.machine t i (.link g) =
      s.machine.writeEntry t i (.link g) := rfl
  rcases s.sees.writeEntry_cases (s.tables d t ht).1 i (.link g) with
    hnone | ⟨m', hsome, htouches, hread⟩
  · refine ⟨.error (.invalidTable level), s, [], ?_, .refl s, by simp, by simp⟩
    rw [change, hwrite, hnone]
  · obtain ⟨s', rfl, hkept, htable⟩ := exists_kept_link htouches ht hd hread habsent hempty
      hg.pool hg.made hg.unlinked
    refine ⟨.ok (), s', [], ?_, hkept, by simp, fun _ _ => htable⟩
    rw [change, hwrite, hsome]

theorem keeps_writeLeaf (ht : s.machine.TableAt 3 t) (i : TableIndex) (e : Entry)
    (level : LinkLevel) :
    Keeps 0 s (change (TableMemory.write · t i e) level) fun _ _ => True := by
  have hwrite : TableMemory.write s.machine t i e = s.machine.writeEntry t i e := rfl
  rcases s.sees.writeEntry_cases (s.tables 3 t ht).1 i e with hnone | ⟨m', hsome, htouches, -⟩
  · refine ⟨.error (.invalidTable level), s, [], ?_, .refl s, by simp, by simp⟩
    rw [change, hwrite, hnone]
  · obtain ⟨s', rfl, hkept⟩ := exists_kept_leaf htouches ht
    refine ⟨.ok (), s', [], ?_, hkept, by simp, fun _ _ => trivial⟩
    rw [change, hwrite, hsome]

theorem keeps_invalidate (s : Holding L) (v : VirtAddr) :
    Keeps 0 s (modify (TableMemory.invalidate · v)) fun _ _ => True := by
  obtain ⟨s', hs', hkept⟩ := exists_kept_quiet s s.machine.console
    (.invalidatePage v :: s.machine.events)
  refine ⟨.ok (), s', [], ?_, hkept, by simp, fun _ _ => trivial⟩
  rw [hs']
  rfl

/-! ## Whole walks -/

theorem keeps_followOrMake (ht : s.machine.TableAt d t) (hd : d < 3) (v : VirtAddr)
    (level : LinkLevel) :
    Keeps 1 s (followOrMake v t level) fun g s' => s'.machine.TableAt (d + 1) g := by
  obtain ⟨r, hentry, hread⟩ := exists_entry ht (level.index v) level
  rw [followOrMake]
  apply Keeps.bind (n := 0) (k := 1) (keeps_look hentry)
  rintro e s' ⟨rfl, rfl⟩
  have he := hread e rfl
  split
  · obtain ⟨r, u, fs, hrun, hkept, hlength, hpost⟩ :=
      keeps_look (n := 1) (s := s') (q := fun _ => .ok (target e level)) rfl
    refine ⟨r, u, fs, hrun, hkept, hlength, fun g hg => ?_⟩
    obtain ⟨rfl, htarget⟩ := hpost g hg
    exact tableAt_target ht hd he htarget
  · rename_i habsent
    apply Keeps.bind (n := 1) (k := 0) (keeps_allocateFrame ht (level.index v))
    rintro f s₁ ⟨ht₁, hread₁, hfresh⟩
    cases f with
    | none => exact keeps_throw _ _
    | some g =>
      apply Keeps.bind (n := 0) (k := 0) (keeps_clear ht₁ (hfresh g rfl) (level.index v) level)
      rintro - s₂ ⟨ht₂, hread₂, hfresh₂, hempty⟩
      have habsent₂ : ∀ e', s₂.machine.readEntry t (level.index v) = .ok (some e') →
          e'.isPresent = false := by
        intro e' he'
        rw [hread₂, hread₁, he] at he'
        rw [← Option.some.inj (Except.ok.inj he')]
        exact Bool.eq_false_iff.mpr habsent
      apply Keeps.bind (n := 0) (k := 0) (keeps_link ht₂ hd hfresh₂ hempty habsent₂ level)
      rintro - s₃ ht₃
      exact keeps_pure ht₃

/-- Mapping a page asks for three frames at most. -/
theorem keeps_map (s : Holding L) (v : VirtAddr) (p : PhysAddr) (attributes : UInt64) :
    Keeps 3 s (map v p attributes) fun _ _ => True := by
  rw [map]
  split
  · exact keeps_throw _ _
  · obtain ⟨r, hroot, hr⟩ := exists_rootTable s
    apply Keeps.bind (n := 0) (k := 3) (keeps_look hroot)
    rintro pml4 s₀ ⟨rfl, rfl⟩
    apply Keeps.bind (n := 1) (k := 2) (keeps_followOrMake (hr pml4 rfl) (by decide) v .pml4)
    intro pdpt s₁ hpdpt
    apply Keeps.bind (n := 1) (k := 1) (keeps_followOrMake hpdpt (by decide) v .pdpt)
    intro pd s₂ hpd
    apply Keeps.bind (n := 1) (k := 0) (keeps_followOrMake hpd (by decide) v .pd)
    intro pt s₃ hpt
    obtain ⟨r, hentry, -⟩ := exists_entry hpt v.leafIndex .pd
    apply Keeps.bind (n := 0) (k := 0) (keeps_look hentry)
    rintro e s₄ ⟨rfl, rfl⟩
    split
    · exact keeps_throw _ _
    · apply Keeps.bind (n := 0) (k := 0) (keeps_writeLeaf hpt _ _ _)
      rintro - s₅ -
      exact keeps_invalidate s₅ v

theorem keeps_unmap (s : Holding L) (v : VirtAddr) :
    Keeps 0 s (unmap v) fun _ _ => True := by
  rw [unmap]
  split
  · exact keeps_throw _ _
  · obtain ⟨r, htable, hr⟩ := exists_leafTable s v
    apply Keeps.bind (n := 0) (k := 0) (keeps_look htable)
    rintro pt s₀ ⟨rfl, rfl⟩
    obtain ⟨r, hentry, -⟩ := exists_entry (hr pt rfl) v.leafIndex .pd
    apply Keeps.bind (n := 0) (k := 0) (keeps_look hentry)
    rintro e s₁ ⟨rfl, rfl⟩
    split
    · apply Keeps.bind (n := 0) (k := 0) (keeps_writeLeaf (hr pt rfl) _ _ _)
      rintro - s₂ -
      exact keeps_invalidate s₂ v
    · exact keeps_throw _ _

end Paging

end KernelCore
