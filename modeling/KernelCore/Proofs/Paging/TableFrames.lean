import KernelCore.Proofs.Paging.Runs

/-!
# Frames of the tables

An allocator that serves nothing but the mapper keeps exact books of the tables: the frames in use
are the tables, each of them is linked once, and an attempt to map a page takes as many frames as
the page needs tables. Where there are fewer, it takes those, and the tables that it made with them
are there for the next attempt.
-/

namespace KernelCore

namespace Arena

variable {a b : Arena} {f g : Frame} {i : TableIndex} {way : List TableIndex}

/-- Frames of the tables below the root. -/
def linked (a : Arena) : Set Frame :=
  {f | ∃ way, way ≠ [] ∧ way.length ≤ 3 ∧ a.tableAt? way = some f}

/-- Frames of the tables that `b` has and `a` has not. -/
def fresh (a b : Arena) : Set Frame := {f | b.isTable f ∧ ¬ a.isTable f}

theorem finite_frames (s : Set Frame) : s.Finite := by
  have hinjective : Function.Injective fun f : Frame => (⟨f.number, f.lt⟩ : Fin 0x10000000000) := by
    intro f g h
    ext1
    exact congrArg Fin.val h
  have := Finite.of_injective _ hinjective
  exact s.toFinite

/-- A table is the root or linked below it. -/
theorem Tree.ncard_tables (h : Tree a) : {f | a.isTable f}.ncard = 1 + a.linked.ncard := by
  obtain ⟨r, hr⟩ := h.rooted
  have hroot : r ∉ a.linked := by
    rintro ⟨way, hne, hway, htable⟩
    exact hne (h.unique hway (show ([] : List TableIndex).length ≤ 3 by simp) htable hr)
  have hinsert : {f | a.isTable f} = insert r a.linked := by
    ext f
    simp only [Set.mem_ofPred_eq, Set.mem_insert_iff]
    constructor
    · rintro ⟨way, hway, hf⟩
      rcases eq_or_ne way [] with rfl | hne
      · exact .inl (Option.some.inj (hf.symm.trans hr))
      · exact .inr ⟨way, hne, hway, hf⟩
    · rintro (rfl | ⟨way, -, hway, hf⟩)
      · exact ⟨[], by simp, hr⟩
      · exact ⟨way, hway, hf⟩
  rw [hinsert, Set.ncard_insert_of_notMem hroot (finite_frames _), Nat.add_comm]

/-- A present entry of an upper table is the link to the table one step further. -/
theorem Plain.link_of_present (h : Plain a) (hway : way.length < 3) (hf : a.tableAt? way = some f)
    (hpresent : (a.cell f i).isPresent = true) :
    ∃ g, a.cell f i = .link g ∧ a.tableAt? (i :: way) = some g := by
  rcases h way f hway hf i with habsent | ⟨g, hlink⟩
  · simp [habsent, Entry.isPresent_eq_bit] at hpresent
  · exact ⟨g, hlink, (tableAt?_cons hf i).trans (child?_eq_some hlink)⟩

/-- The table before the last step of a way holds the link to the table at its end. -/
theorem Plain.link_of_table (h : Plain a) (hway : way.length < 3)
    (hg : a.tableAt? (i :: way) = some g) :
    ∃ f, a.tableAt? way = some f ∧ a.cell f i = .link g := by
  obtain ⟨f, hf, hchild⟩ := Option.bind_eq_some_iff.mp hg
  refine ⟨f, hf, ?_⟩
  rcases h way f hway hf i with habsent | ⟨g', hlink⟩
  · rw [child?_eq_none (by simp [habsent, Entry.isPresent_eq_bit])] at hchild
    contradiction
  · rw [child?_eq_some hlink] at hchild
    rw [hlink, Option.some.inj hchild]

/-- The new tables are those at the ends of new ways. -/
theorem Grown.mem_fresh (h : Grown a b) :
    f ∈ fresh a b ↔ ∃ way, way.length ≤ 3 ∧ a.tableAt? way = none ∧ b.tableAt? way = some f := by
  constructor
  · rintro ⟨⟨way, hway, hf⟩, hnew⟩
    refine ⟨way, hway, ?_, hf⟩
    cases ha : a.tableAt? way with
    | none => rfl
    | some g =>
      obtain rfl := Option.some.inj ((h.kept hway ha).symm.trans hf)
      exact absurd ⟨way, hway, ha⟩ hnew
  · rintro ⟨way, hway, hnone, hf⟩
    refine ⟨⟨way, hway, hf⟩, ?_⟩
    rintro ⟨way', hway', hf'⟩
    obtain rfl := h.tree.unique hway hway' hf (h.kept hway' hf')
    simp [hnone] at hf'

/-- New tables hold nothing but links to new tables. -/
theorem Grown.cell_fresh (h : Grown a b) (hf : f ∈ fresh a b) (i : TableIndex) :
    b.cell f i = .absent ∨ ∃ g ∈ fresh a b, b.cell f i = .link g := by
  obtain ⟨way, hway, hnone, htable⟩ := h.mem_fresh.mp hf
  rcases Nat.lt_or_eq_of_le hway with hupper | hlast
  · rcases h.plain way f hupper htable i with habsent | ⟨g, hlink⟩
    · exact .inl habsent
    · refine .inr ⟨g, h.mem_fresh.mpr ⟨i :: way, hupper, ?_, ?_⟩, hlink⟩
      · rw [tableAt?, hnone, Option.bind_none]
      · rw [tableAt?_cons htable, child?_eq_some hlink]
  · exact .inl (h.newLeaf hlast hnone htable i)

end Arena

namespace Paging

variable {a b c : Arena}

/-- The frames in use are the tables. -/
def Accounted (a : Arena) : Prop := ∀ f, a.frames.isUsed f = true ↔ a.isTable f

theorem Accounted.grown (h : Accounted a) (hgrown : Arena.Grown a b) : Accounted b := by
  intro f
  rw [hgrown.isUsed, h f, ← hgrown.mem_fresh]
  constructor
  · rintro (⟨way, hway, hf⟩ | hf)
    · exact ⟨way, hway, hgrown.kept hway hf⟩
    · exact hf.1
  · intro hf
    by_cases ha : a.isTable f
    · exact .inl ha
    · exact .inr ⟨hf, ha⟩

theorem Accounted.wrote (h : Accounted a) (htree : Arena.Tree a) {v : VirtAddr} {pt : Frame}
    {i : TableIndex} {e : Entry} (hpt : a.tableAt? v.way = some pt)
    (hwrote : Arena.Wrote a b pt i e) : Accounted b := by
  intro f
  rw [hwrote.frames, h f]
  refine exists_congr fun way => and_congr_right fun hway => ?_
  rw [hwrote.tableAt? htree hpt v.length_way hway]

theorem Accounted.outcome (h : Accounted a) (ha : WellFormed a) {action : Action}
    {result : Except PagingError Unit} (hmapper : action.ofMapper = true)
    (hdone : Outcome Arena.Grown a c action result) : Accounted c := by
  cases hdone with
  | mapped grown table _ wrote _ => exact (h.grown grown).wrote grown.tree table wrote
  | notMapped grown => exact h.grown grown
  | unmapped table _ wrote _ => exact h.wrote ha.tree table wrote
  | notUnmapped same => exact same ▸ h
  | foreign foreign _ => simp [foreign] at hmapper

theorem Beginning.accounted {used : FrameAllocator} {r : Frame} (h : Beginning a used r)
    (hlent : used.lent = ∅) : Accounted a := by
  intro f
  rw [h.handed.isUsed, FrameAllocator.isUsed_iff h.sound, hlent]
  constructor
  · rintro (hf | rfl)
    · contradiction
    · exact ⟨[], by simp, h.root⟩
  · rintro ⟨way, -, hf⟩
    rcases eq_or_ne way [] with rfl | hne
    · exact .inr (Option.some.inj (hf.symm.trans h.root))
    · simp [h.only hne] at hf

theorem Beginning.missing {used : FrameAllocator} {r : Frame} (h : Beginning a used r)
    (way : List TableIndex) : a.missing way = way.length := by
  induction way with
  | nil => rfl
  | cons i way ih =>
    have hnone := h.only (List.cons_ne_nil i way)
    rw [Arena.missing, ih, hnone, if_pos rfl, List.length_cons]

theorem Accounted.used_eq (h : Accounted a) (hsound : a.frames.Sound) :
    a.frames.used = {f | a.isTable f}.ncard := by
  rw [hsound.used_eq]
  congr
  ext f
  exact h f

/-- New tables are paid for with free frames. -/
theorem Accounted.ncard_fresh (h : Accounted a) (hsound : a.frames.Sound)
    (hgrown : Arena.Grown a b) : (Arena.fresh a b).ncard + b.frames.free = a.frames.free := by
  have hsubset : {f | a.isTable f} ⊆ {f | b.isTable f} := by
    rintro f ⟨way, hway, hf⟩
    exact ⟨way, hway, hgrown.kept hway hf⟩
  have hfresh : Arena.fresh a b = {f | b.isTable f} \ {f | a.isTable f} := rfl
  have hcount := Set.ncard_sdiff_add_ncard_of_subset hsubset (Arena.finite_frames _)
  have hbefore := h.used_eq hsound
  have hafter := (h.grown hgrown).used_eq hgrown.sound
  rw [FrameAllocator.used] at hbefore hafter
  rw [← hfresh] at hcount
  have htotal : b.frames.total = a.frames.total := by
    rw [FrameAllocator.total, hgrown.region, FrameAllocator.total]
  have ha := hsound.free_add_lent
  have hb := hgrown.sound.free_add_lent
  omega

/-- How the tables of an arena are linked and paid for. -/
structure Orderly (a : Arena) : Prop where
  distinct : ∀ {way way' f}, way.length ≤ 3 → way'.length ≤ 3 → a.tableAt? way = some f →
    a.tableAt? way' = some f → way = way'
  /-- What an upper table holds are links. -/
  link : ∀ {way f i}, way.length < 3 → a.tableAt? way = some f → (a.cell f i).isPresent = true →
    ∃ g : Frame, (a.cell f i).bits = UInt64.ofNat g.base.val ||| 3 ∧ a.tableAt? (i :: way) = some g
  /-- A table below the root has its link in the table before it, and no other one anywhere. -/
  once : ∀ {way i g}, way.length < 3 → a.tableAt? (i :: way) = some g →
    ∃ f, a.tableAt? way = some f ∧ (a.cell f i).bits = UInt64.ofNat g.base.val ||| 3 ∧
      ∀ {way' f' j}, way'.length < 3 → a.tableAt? way' = some f' → (a.cell f' j).isPresent = true →
        (a.cell f' j).address = g.base → f' = f ∧ j = i
  isUsed : ∀ f, a.frames.isUsed f = true ↔ a.isTable f
  count : a.frames.used = 1 + a.linked.ncard

theorem Accounted.orderly (h : Accounted a) (ha : WellFormed a) : Orderly a where
  distinct := ha.tree.unique
  link hway hf hpresent := by
    obtain ⟨g, hlink, hg⟩ := ha.plain.link_of_present hway hf hpresent
    exact ⟨g, congrArg Entry.bits hlink, hg⟩
  once {way i g} hway hg := by
    obtain ⟨f, hf, hlink⟩ := ha.plain.link_of_table hway hg
    refine ⟨f, hf, congrArg Entry.bits hlink, ?_⟩
    intro way' f' j hway' hf' hpresent haddress
    obtain ⟨g', hlink', hg'⟩ := ha.plain.link_of_present hway' hf' hpresent
    rw [hlink', Entry.address_link] at haddress
    obtain rfl := FrameAllocator.base_injective (congrArg PhysAddr.val haddress)
    obtain ⟨rfl, rfl⟩ := List.cons.inj (ha.tree.unique hway' hway hg' hg)
    exact ⟨Option.some.inj (hf'.symm.trans hf), rfl⟩
  isUsed := h
  count := by rw [h.used_eq ha.sound, ha.tree.ncard_tables]

theorem Run.accounted {trace : Trace} (hbegins : Begins a []) (hrun : Run a trace b)
    (hmapper : ∀ x ∈ trace, x.1.ofMapper = true) : WellFormed b ∧ Accounted b := by
  obtain ⟨_, _, hbeginning, hlent⟩ := hbegins.beginning
  obtain ⟨hb, hinvariant⟩ := hrun.invariant
    (J := fun trace b => (∀ x ∈ trace, x.1.ofMapper = true) → Accounted b) hbeginning.wellFormed
    (fun _ => hbeginning.accounted (hlent rfl))
    fun hb haccounted hdone hmapper =>
      (haccounted fun x hx => hmapper x (List.mem_cons_of_mem _ hx)).outcome hb
        (hmapper _ List.mem_cons_self) hdone
  exact ⟨hb, hinvariant hmapper⟩

/-- No frame of a table is lost. Whatever is mapped and unmapped with whatever success, the tables
form a tree whose frames are the ones in use. An attempt to map a page takes a frame for each of the
at most three tables that the page lacks; with too few of them it takes those, and the tables made
with them, which hold nothing but links among them, are there for a later attempt. -/
theorem Run.accounts_for_tables {trace : Trace} (hbegins : Begins a []) (hrun : Run a trace b)
    (hmapper : ∀ x ∈ trace, x.1.ofMapper = true) :
    Orderly b ∧ ∀ (v : VirtAddr) (p : PhysAddr) (attributes : UInt64), v.isNull = false →
      p.val ≠ 0 → b.missing v.way ≤ 3 ∧
        (b.missing v.way ≤ b.frames.free → ∃ result c, Paging.map v p attributes b = .ok result c ∧
          (∀ level, result ≠ .error (.noMemory level)) ∧
          (result = .ok () → c.frames.free + b.missing v.way = b.frames.free)) ∧
        (b.frames.free < b.missing v.way → ∃ level c,
          Paging.map v p attributes b = .ok (.error (.noMemory level)) c ∧ c.frames.free = 0 ∧
          (Arena.fresh b c).ncard = b.frames.free ∧
          (∀ f ∈ Arena.fresh b c, ∀ i, c.cell f i = .absent ∨
            ∃ g ∈ Arena.fresh b c, (c.cell f i).bits = UInt64.ofNat g.base.val ||| 3) ∧
          c.missing v.way = b.missing v.way - b.frames.free) := by
  obtain ⟨hb, haccounted⟩ := hrun.accounted hbegins hmapper
  refine ⟨haccounted.orderly hb, fun v p attributes hv hp => ⟨b.missing_le_length _, ?_, ?_⟩⟩
  all_goals
    intro hframes
    obtain ⟨c, hgrown, -, hcases⟩ := map_cases hb hv hp attributes
  · rcases hcases with ⟨level, -, -, hpos, hsum⟩ | ⟨pt, -, hfree, ⟨-, herror⟩ |
      ⟨-, d, hok, hwrote, -⟩⟩
    · omega
    · exact ⟨_, c, herror, nofun, nofun⟩
    · refine ⟨_, d, hok, nofun, fun _ => ?_⟩
      rw [hwrote.frames]
      exact hfree
  · rcases hcases with ⟨level, herror, hzero, hpos, hsum⟩ | ⟨pt, -, hfree, -⟩
    · have hcount := haccounted.ncard_fresh hb.sound hgrown
      refine ⟨level, c, herror, hzero, by omega, fun f hf i => ?_, by omega⟩
      rcases hgrown.cell_fresh hf i with habsent | ⟨g, hg, hlink⟩
      · exact .inl habsent
      · exact .inr ⟨g, hg, congrArg Entry.bits hlink⟩
    · omega

/-- With two frames, one of them for the root, one of the three tables of a page is made. -/
theorem Run.accounts_for_tables_of_two_frames :
    ∃ a b level, Begins a [] ∧
      Run a [(.map ⟨0x1000, by decide⟩ ⟨0x2000, by decide⟩ 0, .error (.noMemory level))] b ∧
      b.frames.used = 1 + b.linked.ncard ∧ b.frames.free = 0 ∧
      b.missing (VirtAddr.way ⟨0x1000, by decide⟩) = 2 := by
  obtain ⟨new, hnew⟩ : ∃ new, FrameAllocator.ofBuffer ⟨⟨0x200000, by decide⟩, 0x2000⟩
      ⟨⟨0x1000, by decide⟩, 1⟩ ⟨#[0xff]⟩ = .ok new := ⟨_, rfl⟩
  obtain ⟨a, hbegins, hcount⟩ := exists_begins hnew (by decide)
  have hfree : a.frames.free = 1 := Nat.succ.inj hcount
  obtain ⟨_, _, hbeginning, -⟩ := hbegins.beginning
  have hmissing := hbeginning.missing (VirtAddr.way ⟨0x1000, by decide⟩)
  rw [VirtAddr.length_way] at hmissing
  obtain ⟨-, hmap⟩ := (Run.start (a := a)).accounts_for_tables hbegins (by simp)
  obtain ⟨-, -, hshort⟩ := hmap ⟨0x1000, by decide⟩ ⟨0x2000, by decide⟩ 0 rfl (by decide)
  obtain ⟨level, b, herror, hzero, -, -, hless⟩ := hshort (by omega)
  have hrun : Run a
      [(.map ⟨0x1000, by decide⟩ ⟨0x2000, by decide⟩ 0, .error (.noMemory level))] b :=
    .next .start trivial herror
  obtain ⟨horderly, -⟩ := hrun.accounts_for_tables hbegins (by simp [Action.ofMapper])
  exact ⟨a, b, level, hbegins, hrun, horderly.count, hzero, by omega⟩

end Paging

end KernelCore
