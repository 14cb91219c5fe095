import KernelCore.Proofs.Paging.Translations

/-!
# What pages are mapped to

Below a root that started out empty, a page that was mapped keeps its leaf until it is unmapped,
whatever else is mapped, unmapped or refused, also if frames of the pool turn out to be unfit for
tables. The leaf holds the lower 48 bits of the physical address that was asked for, while 52 bits
are read back, so pages that were mapped to different frames may resolve to one.
-/

namespace KernelCore

theorem Frame.containing_eq_iff {p q : PhysAddr} :
    Frame.containing p = Frame.containing q ↔ p.val / 4096 = q.val / 4096 :=
  Frame.ext_iff

namespace Entry

/-- Of the number of a leaf's frame only the lower 36 bits are kept. -/
theorem address_leaf (p : PhysAddr) (attributes : UInt64) :
    (leaf p attributes).address.val = p.val / 4096 % 0x1000000000 * 4096 := by
  have hbits : p.val / 4096 % 0x1000000000 * 4096 = 2 ^ 12 * (p.val / 2 ^ 12 % 2 ^ 36) := by omega
  rw [hbits]
  apply Nat.eq_of_testBit_eq
  intro i
  rw [testBit_address, bit_leaf, Nat.testBit_two_pow_mul, Nat.testBit_mod_two_pow,
    Nat.testBit_div_two_pow]
  by_cases hlow : 12 ≤ i
  · by_cases hhigh : i < 48
    · simp [hlow, hhigh, show i < 52 by omega, show i - 12 < 36 by omega,
        show i - 12 + 12 = i by omega, show ¬ i < 12 by omega, show ¬ 52 ≤ i by omega,
        show ¬ i < 2 by omega]
    · by_cases hfield : i < 52
      · simp [hhigh, hfield, show ¬ i - 12 < 36 by omega, show ¬ i < 12 by omega,
          show ¬ 52 ≤ i by omega, show ¬ i < 2 by omega]
      · simp [hfield, show ¬ i - 12 < 36 by omega]
  · simp [hlow]

/-- The flags of a leaf are those that were asked for, and that it is present and writable. -/
theorem flags_leaf (p : PhysAddr) (attributes : UInt64) :
    (leaf p attributes).flags = (attributes &&& 0xfff0000000000fff) ||| 3 := by
  rw [← UInt64.toNat_inj]
  apply Nat.eq_of_testBit_eq
  intro i
  have hbit := bit_leaf p attributes i
  rw [bit] at hbit
  rw [flags, UInt64.toNat_and, UInt64.toNat_or, UInt64.toNat_and, Nat.testBit_and, Nat.testBit_or,
    Nat.testBit_and, hbit]
  by_cases hi : i < 64
  · have hmask : ∀ i : Fin 64, (0xfff0000000000fff : UInt64).toNat.testBit i.val =
        decide (i.val < 12 ∨ 52 ≤ i.val) := by decide
    have hthree : ∀ i : Fin 64, (3 : UInt64).toNat.testBit i.val = decide (i.val < 2) := by decide
    rw [hmask ⟨i, hi⟩, hthree ⟨i, hi⟩]
    by_cases hkept : i < 12 ∨ 52 ≤ i
    · have haddress : ¬ (12 ≤ i ∧ i < 48) := by omega
      simp [hkept, haddress]
    · have hlow : ¬ i < 2 := by omega
      simp [hkept, hlow]
  · have hlarge : ∀ w : UInt64, w.toNat.testBit i = false := fun w =>
      Nat.testBit_lt_two_pow (Nat.lt_of_lt_of_le w.toNat_lt
        (Nat.pow_le_pow_right (by decide) (by omega)))
    rw [hlarge 0xfff0000000000fff, hlarge 3, Bool.and_false, Bool.and_false, Bool.or_false]

end Entry

namespace Paging

variable {a b c : Arena} {v : VirtAddr} {p : PhysAddr} {attributes : UInt64} {trace : Trace}

/-- An arena whose root is an empty table outside the free frames. The allocator is in any state that
requests lead to, over a pool that lies within the physical addresses. -/
def Opens (a : Arena) : Prop :=
  ∃ pool place r, FrameAllocator.Reachable pool place a.frames ∧
    a.frames.startOf a.frames.total ≤ 0x10000000000000 ∧ a.root = some r ∧ ¬ a.frames.isFree r ∧
    ∀ i, a.read? r i = some .absent

theorem Opens.tidy (h : Opens a) : Tidy a := by
  obtain ⟨_, _, r, hframes, hend, hroot, hused, hzero⟩ := h
  exact tidy_of_zeroed hroot hzero (hframes.sound hend) hused

theorem Opens.agrees (h : Opens a) : Agrees a PageMap.empty := by
  obtain ⟨_, _, r, -, -, hroot, -, hzero⟩ := h
  exact agrees_empty (tableAt?_of_zeroed hroot hzero)

theorem Begins.opens {requests : List FrameAllocator.Request} (h : Begins a requests) : Opens a := by
  obtain ⟨pool, place, hframes⟩ := h.reachable
  obtain ⟨used, r, hbeginning, -⟩ := h.beginning
  have hwell := hbeginning.wellFormed
  obtain ⟨_, _, _, _, _, _, r', -, -, -, -, hroot, hzero⟩ := h
  exact ⟨pool, place, r', hframes, hwell.addressable.startOf_total_le, hroot,
    hwell.tree.reserved (show ([] : List TableIndex).length ≤ 3 by simp) hroot, hzero⟩

/-- Physical address and attributes by page. -/
abbrev Mapping := ℕ → Option (PhysAddr × UInt64)

namespace Mapping

def after (M : Mapping) : Action → Except PagingError Unit → Mapping
  | .map v p attributes, .ok _ => Function.update M v.page (some (p, attributes))
  | .unmap v, .ok _ => Function.update M v.page none
  | _, _ => M

/-- What each page was mapped to by the latest success, unless it was unmapped since. -/
def ofTrace : Trace → Mapping
  | [] => fun _ => none
  | (action, result) :: trace => (ofTrace trace).after action result

/-- A page that is mapped has the leaf that was asked for in the page map. -/
theorem pageMap_eq {page : ℕ} (h : ofTrace trace page = some (p, attributes)) :
    PageMap.ofTrace trace page = some (Entry.leaf p attributes).bits := by
  induction trace with
  | nil => contradiction
  | cons x trace ih =>
    obtain ⟨action, result⟩ := x
    rw [ofTrace] at h
    rw [PageMap.ofTrace]
    cases result with
    | error e => cases action <;> exact ih h
    | ok =>
      cases action with
      | map v q attributes' =>
        rw [after] at h
        rw [PageMap.after, PageMap.store]
        by_cases hpage : page = v.page
        · rw [hpage, Function.update_self] at h
          obtain ⟨rfl, rfl⟩ := Prod.mk.inj (Option.some.inj h)
          rw [hpage, Function.update_self, Entry.leaf]
        · rw [Function.update_of_ne hpage] at h ⊢
          exact ih h
      | unmap v =>
        rw [after] at h
        rw [PageMap.after, PageMap.withdraw]
        by_cases hpage : page = v.page
        · rw [hpage, Function.update_self] at h
          contradiction
        · rw [Function.update_of_ne hpage] at h ⊢
          exact ih h
      | serve r => exact ih h
      | scribble f i e => exact ih h

end Mapping

/-- The page that was just mapped is mapped. -/
theorem mapping_self : Mapping.ofTrace ((.map v p attributes, .ok ()) :: trace) v.page =
    some (p, attributes) := by
  rw [Mapping.ofTrace, Mapping.after, Function.update_self]

/-- A page that is mapped has a last table, with the leaf that was asked for. -/
theorem Agrees.exists_leaf (h : Agrees b (PageMap.ofTrace trace))
    (hmapped : Mapping.ofTrace trace v.page = some (p, attributes)) :
    ∃ pt, b.tableAt? v.way = some pt ∧ b.cell pt v.leafIndex = .leaf p attributes := by
  have hword := Mapping.pageMap_eq hmapped
  cases hpt : b.tableAt? v.way with
  | none =>
    rw [h.blank hpt] at hword
    contradiction
  | some pt =>
    refine ⟨pt, rfl, ?_⟩
    have hbits := h.word hpt
    rw [hword, Option.getD_some] at hbits
    exact congrArg Entry.mk hbits

/-- A page resolves to a physical address, of whose frame number only the lower 36 bits are kept. -/
def ResolvesTo (a : Arena) (v : VirtAddr) (p : PhysAddr) : Prop :=
  ∃ q, translate a v = .ok (some q) ∧
    q.val = p.val / 4096 % 0x1000000000 * 4096 + v.pageOffset ∧
    (Frame.containing q = Frame.containing p ↔ p.val < 0x1000000000000)

theorem Agrees.resolvesTo (h : Agrees b (PageMap.ofTrace trace))
    (hmapped : Mapping.ofTrace trace v.page = some (p, attributes)) : ResolvesTo b v p := by
  obtain ⟨pt, hpt, hleaf⟩ := h.exists_leaf hmapped
  have hoffset : v.pageOffset < 4096 := Nat.mod_lt _ (by decide)
  have hvalue : (physicalAddress (.leaf p attributes) v).val =
      p.val / 4096 % 0x1000000000 * 4096 + v.pageOffset :=
    congrArg (· + v.pageOffset) (Entry.address_leaf p attributes)
  refine ⟨_, ?_, hvalue, ?_⟩
  · rw [translate_eq_map, presentLeaf?_eq, hpt, Option.bind_some, hleaf,
      if_pos (Entry.isPresent_leaf p attributes), Option.map_some]
  · rw [Frame.containing_eq_iff, hvalue]
    have hlt := p.lt
    omega

/-- Mapped pages resolve by the lower 48 bits of their physical addresses. Below a root that started
out empty, whatever is mapped and unmapped with whatever success, and whatever others do with the
allocator and with frames that are no tables: a page that is mapped resolves right away, and as long
as it is not unmapped, to the frame of the address that was asked for if that lies below 2^48, and
otherwise to the frame whose number has the same lower 36 bits. So two mapped pages resolve to one
frame exactly if the numbers of the frames asked for agree in these bits. -/
theorem Run.mapped_pages_resolve (hopens : Opens a) (hrun : Run a trace b) :
    (∀ v p attributes c, Paging.map v p attributes b = .ok (.ok ()) c → ResolvesTo c v p) ∧
      (∀ (v : VirtAddr) p attributes, Mapping.ofTrace trace v.page = some (p, attributes) →
        ResolvesTo b v p) ∧
      ∀ (v₁ v₂ : VirtAddr) p₁ p₂ attributes₁ attributes₂,
        Mapping.ofTrace trace v₁.page = some (p₁, attributes₁) →
        Mapping.ofTrace trace v₂.page = some (p₂, attributes₂) →
        ∃ q₁ q₂, translate b v₁ = .ok (some q₁) ∧ translate b v₂ = .ok (some q₂) ∧
          (Frame.containing q₁ = Frame.containing q₂ ↔
            p₁.val / 4096 % 0x1000000000 = p₂.val / 4096 % 0x1000000000) := by
  obtain ⟨-, hagrees⟩ := hrun.tidy_agrees hopens.tidy hopens.agrees
  refine ⟨fun v p attributes c hmap => ?_, fun v p attributes => hagrees.resolvesTo,
    fun v₁ v₂ p₁ p₂ attributes₁ attributes₂ h₁ h₂ => ?_⟩
  · have hnext : Run a ((.map v p attributes, .ok ()) :: trace) c := hrun.next trivial hmap
    obtain ⟨-, hagrees'⟩ := hnext.tidy_agrees hopens.tidy hopens.agrees
    exact hagrees'.resolvesTo mapping_self
  · obtain ⟨q₁, htranslate₁, hvalue₁, -⟩ := hagrees.resolvesTo h₁
    obtain ⟨q₂, htranslate₂, hvalue₂, -⟩ := hagrees.resolvesTo h₂
    refine ⟨q₁, q₂, htranslate₁, htranslate₂, ?_⟩
    have hoffset₁ : v₁.pageOffset < 4096 := Nat.mod_lt _ (by decide)
    have hoffset₂ : v₂.pageOffset < 4096 := Nat.mod_lt _ (by decide)
    rw [Frame.containing_eq_iff, hvalue₁, hvalue₂]
    omega

/-- The first page is mapped with three free frames at hand. -/
theorem Begins.exists_map {requests : List FrameAllocator.Request} (h : Begins a requests)
    (hfree : 3 ≤ a.frames.free) (hv : v.isNull = false) (hp : p.val ≠ 0) (attributes : UInt64) :
    ∃ c, Paging.map v p attributes a = .ok (.ok ()) c := by
  obtain ⟨_, _, hbeginning, -⟩ := h.beginning
  exact (hbeginning.agrees.map_eq_ok_iff hbeginning.wellFormed v p attributes).mpr
    ⟨hv, hp, rfl, (a.missing_le_length _).trans hfree⟩

/-- Every page can be mapped to every address, with all attributes, below some empty root. -/
theorem exists_mapped (hv : v.isNull = false) (hp : p.val ≠ 0) (attributes : UInt64) :
    ∃ a b : Arena, Opens a ∧ Paging.map v p attributes a = .ok (.ok ()) b := by
  obtain ⟨new, hnew⟩ : ∃ new, FrameAllocator.ofBuffer ⟨⟨0x200000, by decide⟩, 0x8000⟩
      ⟨⟨0x1000, by decide⟩, 1⟩ ⟨#[0xff]⟩ = .ok new := ⟨_, rfl⟩
  obtain ⟨a, hbegins, hcount⟩ := exists_begins hnew (by decide)
  have hfree : a.frames.free = 7 := Nat.succ.inj hcount
  obtain ⟨b, hmap⟩ := hbegins.exists_map (by omega) hv hp attributes
  exact ⟨a, b, hbegins.opens, hmap⟩

/-- Two pages that were mapped to frames 2^48 apart resolve to one address. -/
theorem Run.mapped_pages_resolve_of_distant_frames :
    ∃ (a b : Arena) (q₁ q₂ : PhysAddr), Opens a ∧
      Run a [(.map ⟨0x2000, by decide⟩ ⟨0x5000, by decide⟩ 0, .ok ()),
        (.map ⟨0x1000, by decide⟩ ⟨0x1000000005000, by decide⟩ 0, .ok ())] b ∧
      translate b ⟨0x1000, by decide⟩ = .ok (some q₁) ∧
      translate b ⟨0x2000, by decide⟩ = .ok (some q₂) ∧ q₁.val = 0x5000 ∧
      Frame.containing q₁ = Frame.containing q₂ := by
  obtain ⟨new, hnew⟩ : ∃ new, FrameAllocator.ofBuffer ⟨⟨0x200000, by decide⟩, 0x4000⟩
      ⟨⟨0x1000, by decide⟩, 1⟩ ⟨#[0xff]⟩ = .ok new := ⟨_, rfl⟩
  obtain ⟨a, hbegins, hcount⟩ := exists_begins hnew (by decide)
  have hfree : a.frames.free = 3 := Nat.succ.inj hcount
  obtain ⟨_, _, hbeginning, -⟩ := hbegins.beginning
  obtain ⟨b, hfirst⟩ := hbegins.exists_map (v := ⟨0x1000, by decide⟩)
    (p := ⟨0x1000000005000, by decide⟩) hfree.ge rfl (by decide) 0
  have hrun : Run a [(.map ⟨0x1000, by decide⟩ ⟨0x1000000005000, by decide⟩ 0, .ok ())] b :=
    .next .start trivial hfirst
  obtain ⟨hb, hagrees⟩ := hrun.agrees hbeginning.wellFormed hbeginning.agrees
  -- both pages have the same tables
  obtain ⟨pt, hpt, -⟩ := hagrees.exists_leaf mapping_self
  have hmissing : b.missing (VirtAddr.way ⟨0x2000, by decide⟩) = 0 := Arena.missing_eq_zero hpt
  obtain ⟨c, hsecond⟩ := (hagrees.map_eq_ok_iff hb ⟨0x2000, by decide⟩ ⟨0x5000, by decide⟩ 0).mpr
    ⟨rfl, by decide, rfl, by omega⟩
  have hboth : Run a [(.map ⟨0x2000, by decide⟩ ⟨0x5000, by decide⟩ 0, .ok ()),
      (.map ⟨0x1000, by decide⟩ ⟨0x1000000005000, by decide⟩ 0, .ok ())] c :=
    .next hrun trivial hsecond
  obtain ⟨-, hmapped, hpairs⟩ := hboth.mapped_pages_resolve hbegins.opens
  obtain ⟨q₁, q₂, h₁, h₂, hframes⟩ := hpairs ⟨0x1000, by decide⟩ ⟨0x2000, by decide⟩
    ⟨0x1000000005000, by decide⟩ ⟨0x5000, by decide⟩ 0 0 rfl rfl
  obtain ⟨q, hq, hvalue, -⟩ := hmapped ⟨0x1000, by decide⟩ ⟨0x1000000005000, by decide⟩ 0 rfl
  obtain rfl := Option.some.inj (Except.ok.inj (h₁.symm.trans hq))
  exact ⟨a, c, q₁, q₂, hbegins.opens, hboth, h₁, h₂, hvalue, hframes.mpr rfl⟩

end Paging

end KernelCore
