import KernelCore.Proofs.Memory.Mirrors
import KernelCore.Proofs.Paging.Confinement

/-!
# The memory manager over enclosed tables

A machine whose loaded tables form a tree, apart from the bitmap and from all free frames, shows an
arena: the two have the same tables and the same allocator. A frame that is handed out, or a page
that is mapped, leaves behind a machine that shows what the arena has become, and no walk faults. So
whatever holds of the arena holds of the tables of the machine.
-/

namespace KernelCore

namespace Machine

/-- The table at the end of a way from the loaded top table on. -/
def tableAt? (m : Machine) : List TableIndex → Option Frame
  | [] => some m.topTable
  | i :: way => (m.tableAt? way).bind fun f =>
    match m.readEntry f i with
    | .ok (some e) => (Paging.target e .pml4).toOption
    | _ => none

/-- How many tables of a way are missing. -/
def missing (m : Machine) : List TableIndex → ℕ
  | [] => 0
  | i :: way => m.missing way + if m.tableAt? (i :: way) = none then 1 else 0

/-- The machine has the tables and the allocator of an arena, all inside the set `within`. -/
structure Shows (within : Frame → Bool) (map : DirectMap) (ram : Set ℕ) (m : Machine) (a : Arena) :
    Prop where
  backed : ∃ r, Backed within map ram m r
  mirrors : Mirrors within m a
  enclosed : a.Enclosed within

variable {m : Machine} {map : DirectMap} {ram : Set ℕ} {within : Frame → Bool} {a b : Arena}
  {f : Frame} {way : List TableIndex}

/-! ## Tables -/

/-- The ways of the machine are those of the arena, as long as they stay in the set. -/
theorem Mirrors.tableAt?_eq (h : Mirrors within m a)
    (hin : ∀ way f, way.length < 3 → m.tableAt? way = some f → a.tableAt? way = some f →
      within f = true) (hway : way.length ≤ 3) : m.tableAt? way = a.tableAt? way := by
  induction way with
  | nil => exact h.root.symm
  | cons i way ih =>
    rw [List.length_cons] at hway
    have hsame := ih (by omega)
    rw [tableAt?, hsame]
    cases hf : a.tableAt? way with
    | none => rw [Arena.tableAt?, hf, Option.bind_none, Option.bind_none]
    | some f =>
      have hwithin := hin way f (by omega) (hsame.trans hf) hf
      have hread := h.cells f hwithin i
      rw [Arena.read?_eq_some (h.reached f hwithin)] at hread
      rw [Arena.tableAt?_cons hf, Option.bind_some, hread]
      rfl

theorem Shows.tableAt?_eq (h : Shows within map ram m a) (hway : way.length ≤ 3) :
    m.tableAt? way = a.tableAt? way :=
  h.mirrors.tableAt?_eq (fun _ _ hlt _ hf => h.enclosed.table hlt.le hf) hway

theorem missing_eq (hsame : ∀ way, way.length ≤ 3 → m.tableAt? way = a.tableAt? way)
    (hway : way.length ≤ 3) : m.missing way = a.missing way := by
  induction way with
  | nil => rfl
  | cons i way ih =>
    rw [missing, Arena.missing, hsame _ hway, ih (by rw [List.length_cons] at hway; omega)]

/-! ## Walks -/

/-- An arena answers a machine that mirrors it. -/
theorem agreesWithin_shown (within : Frame → Bool) (map : DirectMap) (ram : Set ℕ) :
    Paging.Confined.AgreesWithin within fun (a : Arena) (m : Machine) =>
      ∃ r, Backed within map ram m r ∧ Mirrors within m a := by
  refine (agreesWithin_mirrors within map ram).symm ?_ ?_ ?_
  · rintro f i e m a hf ⟨r, hb, h⟩
    obtain ⟨m', b, hm', -⟩ := h.write hb hf i e
    show m.writeEntry f i e ≠ _
    rw [hm']
    simp
  · rintro f m a hf ⟨r, hb, h⟩
    obtain ⟨m', b, hm', -⟩ := h.clear hb hf
    show m.clearTable f ≠ _
    rw [hm']
    simp
  · rintro m a m' ⟨r, hb, -⟩
    show Kernel.allocateFrame m ≠ _
    rw [allocateFrame_eq hb.frames]
    split <;> simp

theorem Shows.related (h : Shows within map ram m a) :
    ∃ r, Backed within map ram m r ∧ Mirrors within m a := by
  obtain ⟨r, hr⟩ := h.backed
  exact ⟨r, hr, h.mirrors⟩

theorem Shows.logged (h : Shows within map ram m a) (console : Console) :
    Shows within map ram { m with console } a := by
  obtain ⟨r, hr⟩ := h.backed
  exact ⟨⟨r, hr.logged console⟩, h.mirrors.logged console, h.enclosed⟩

theorem Shows.frames (h : Shows within map ram m a) :
    ∃ r, m.frames = some r ∧ r.load m.memory = a.frames := by
  obtain ⟨r, hr⟩ := h.backed
  exact ⟨r, hr.frames, h.mirrors.load_eq hr⟩

theorem Shows.leaf_eq (h : Shows within map ram m a) (v : VirtAddr) :
    Paging.leaf m v = Paging.leaf a v :=
  (agreesWithin_shown within map ram).leaf_eq h.enclosed h.related v

theorem Shows.presentLeaf?_eq (h : Shows within map ram m a) (v : VirtAddr) :
    Paging.presentLeaf? m v = Paging.presentLeaf? a v := by
  simp only [Paging.presentLeaf?, h.leaf_eq v]

/-- The memory manager answers with the leaves of the arena. -/
theorem Shows.translate_eq (h : Shows within map ram m a) (v : VirtAddr) :
    Kernel.translate v m =
      .ok ((Paging.presentLeaf? a v).map (Paging.physicalAddress · v)) m := by
  obtain ⟨r, hr⟩ := h.backed
  have hsame : Paging.translate m v = Paging.translate a v := by
    simp only [Paging.translate, h.leaf_eq v]
  rw [Paging.translate_eq (by rw [hr.sees.mapper]; rfl), hsame, Paging.translate_eq_map]
  rfl

theorem Shows.allocateFrame_eq_ok {r : Option Frame} {frames : FrameAllocator}
    (h : Shows within map ram m a) (hrun : FrameAllocator.allocateFrame a.frames = .ok r frames)
    (henclosed : ({ a with frames } : Arena).Enclosed within) :
    ∃ m', Kernel.allocateFrame m = .ok r m' ∧ Shows within map ram m' { a with frames } := by
  have hboth := (agreesWithin_shown within map ram).allocateFrame a m h.related
  simp only [TableMemory.allocateFrame, Arena.allocateFrame, hrun] at hboth
  generalize Kernel.allocateFrame m = result at hboth ⊢
  cases hboth with
  | done _ related =>
    obtain ⟨r', hb, hmirrors⟩ := related
    exact ⟨_, rfl, ⟨r', hb⟩, hmirrors, henclosed⟩

theorem Shows.mapPage_eq_ok {v : VirtAddr} {p : PhysAddr} {attributes : UInt64}
    {r : Except PagingError Unit} (h : Shows within map ram m a)
    (hrun : Paging.map v p attributes a = .ok r b) (henclosed : b.Enclosed within) :
    ∃ m', Kernel.mapPage v p attributes m = .ok (r.mapError .paging) m' ∧
      Shows within map ram m' b := by
  obtain ⟨s, hs⟩ := h.backed
  obtain ⟨m₁, hmap, s', hb, hmirrors⟩ :=
    (agreesWithin_shown within map ram).map_eq_ok h.enclosed h.related hrun
  obtain ⟨console, hwalk⟩ := Paging.walk_eq_ok hmap
  have hmapper : m.mapper.isSome = true := by rw [hs.sees.mapper]; rfl
  have hframes : m.frames.isSome = true := by rw [hs.frames]; rfl
  refine ⟨_, (Paging.mapPage_eq hmapper hframes v p attributes).trans hwalk, ?_⟩
  exact Shows.logged ⟨⟨s', hb⟩, hmirrors, henclosed⟩ console

end Machine

end KernelCore
