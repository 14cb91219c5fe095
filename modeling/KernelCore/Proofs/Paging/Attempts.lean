import KernelCore.Proofs.Paging.TableFrames
import KernelCore.Proofs.Paging.Translations

/-!
# Attempts that fail

An attempt to map a page may give up after it has made tables for it. Once it has linked a new table
there is nothing left that could be wrong with the tables, so all that it can run out of are frames;
every other failure comes before the first change. What is left behind then is a chain of zeroed
tables that no page resolves through.
-/

namespace KernelCore

namespace Arena

/-- Every table that is within reach lies at the end of one way only. -/
def Unshared (a : Arena) : Prop :=
  ∀ way way' f, way.length ≤ 3 → way'.length ≤ 3 → a.reaches f → a.tableAt? way = some f →
    a.tableAt? way' = some f → way = way'

end Arena

namespace Paging

variable {a b c : Arena} {f : Frame} {v : VirtAddr} {way indices : List TableIndex}
  {made : List Frame}

/-- No page resolves through the tables of a chain that begins in a gap. -/
theorem presentLeaf?_of_chained (h : Arena.Chained a f indices made c)
    (hgap : ∀ i ∈ indices.head?, a.Gap way f i) (hlength : indices.length + way.length ≤ 3)
    (w : VirtAddr) : presentLeaf? c w = presentLeaf? a w :=
  h.induction_gap (P := fun a c => presentLeaf? c w = presentLeaf? a w) (fun _ => rfl)
    (fun hlinked _ hgap hrest => hrest.trans (presentLeaf?_of_linked hlinked hgap w)) hgap hlength

/-- What an attempt to map a page leaves behind if it fails. -/
inductive Leaves (a c : Arena) (v : VirtAddr) : PagingError → Prop
  | same {e : PagingError} (unchanged : c = a) (frames : ∀ level, e ≠ .noMemory level) :
      Leaves a c v e
  /-- There were too few frames for the tables from the first vacant entry on. -/
  | chain {level : LinkLevel} {i : TableIndex} {rest way : List TableIndex} {f : Frame}
      {made : List Frame} (breaksOff : a.BreaksOff v.way i rest way f)
      (chained : Arena.Chained a f (i :: rest) made c) (length : made.length ≤ rest.length)
      (exhausted : c.frames.free = 0) : Leaves a c v (.noMemory level)

/-- An attempt that gives up where it found the tables unchanged, though not for want of frames. -/
theorem leaves_of_same {p : PhysAddr} {attributes : UInt64} {e : PagingError}
    (herror : map v p attributes a = .ok (.error e) a) (hframes : ∀ level, e ≠ .noMemory level) :
    ∃ result c, map v p attributes a = .ok result c ∧ ∀ e, result = .error e → Leaves a c v e := by
  refine ⟨_, a, herror, ?_⟩
  rintro _ ⟨⟩
  exact .same rfl hframes

/-- An attempt to map a page comes to an end, whatever the tables hold. -/
theorem map_leaves (hsound : a.frames.Sound) (hpool : Addressable a a.frames)
    (hreserved : a.Reserved) (v : VirtAddr) (p : PhysAddr) (attributes : UInt64) :
    ∃ result c, map v p attributes a = .ok result c ∧ ∀ e, result = .error e → Leaves a c v e := by
  by_cases hnull : v.isNull = true ∨ p.val = 0
  · exact leaves_of_same (map_of_null hnull) (by simp)
  · rw [not_or, Bool.not_eq_true] at hnull
    obtain ⟨hv, hp⟩ := hnull
    rcases rootTable_cases a with ⟨pml4, hpml4, hroot⟩ | ⟨hroot, -⟩
    · have hlook : look rootTable a = .ok (.ok pml4) a := by simp only [look, hroot]
      have h₀ : a.tableAt? [] = some pml4 := hpml4
      rcases makeTables_cases v [.pml4, .pdpt, .pd] hsound hreserved h₀ (by simp) with
        ⟨pt, hrun, -⟩ | ⟨level, -, -, -, hrun, -⟩ | ⟨i, rest, w, t, r, c, hrun, hbreak, hmade⟩
      · -- no table was missing, so nothing changes before the leaf is written
        obtain ⟨-, hleaf⟩ := map_of_made attributes hv hp hlook hrun
        rcases hleaf pt rfl with ⟨-, herror⟩ | ⟨-, herror⟩ | ⟨-, c, hok, -⟩
        · exact leaves_of_same herror (by simp)
        · exact leaves_of_same herror (by simp)
        · exact ⟨_, c, hok, by simp⟩
      · obtain ⟨herror, -⟩ := map_of_made attributes hv hp hlook hrun
        exact leaves_of_same (herror _ rfl) (by simp)
      · obtain ⟨herror, hleaf⟩ := map_of_made attributes hv hp hlook hrun
        cases hmade with
        | all _ _ _ reached blank =>
          -- the last table is new, so the page cannot be mapped already
          rcases hleaf _ rfl with ⟨hunreached, -⟩ | ⟨hpresent, -⟩ | ⟨-, d, hok, -⟩
          · exact absurd reached hunreached
          · simp [blank, Entry.isPresent_eq_bit] at hpresent
          · exact ⟨_, d, hok, by simp⟩
        | short chain length exhausted =>
          refine ⟨_, c, herror _ rfl, ?_⟩
          rintro _ ⟨⟩
          exact .chain hbreak chain (by simpa using Nat.le_of_lt_succ length) exhausted
        | lost chain handed unreached =>
          have hlength := hbreak.length ▸ v.length_way
          have happended := chain.appended (hreserved w t (by omega) hbreak.table)
          have hb := hpool.congr happended.alike happended.region
          exact absurd (hb.reaches handed.wasFree) unreached
    · have hlook : look rootTable a = .ok (.error (.invalidTable .pml4)) a := by
        simp only [look, hroot]
      have herror : map v p attributes a = .ok (.error (.invalidTable .pml4)) a := by
        rw [map_eq hv hp, bind_error hlook]
      exact leaves_of_same herror (by simp)

/-- An attempt to map a page that fails does no harm. Whatever the tables hold, as long as no way
leads to a free frame and all frames of the pool can hold tables: unless frames ran out, nothing at
all has changed. If they ran out, no frame is free and no page was invalidated; the only changes are
new tables, zero apart from their links to each other, in a chain that begins at the first entry on
the way to the page that is not present. If besides no table is shared, every page has the leaf and
the translation that it had. -/
theorem map_fails_without_harm {pool place : Extent}
    (hframes : FrameAllocator.Reachable pool place a.frames) (hpool : Addressable a a.frames)
    (hreserved : a.Reserved) (v : VirtAddr) (p : PhysAddr) (attributes : UInt64) :
    ∃ result c, map v p attributes a = .ok result c ∧ ∀ e, result = .error e →
      ((∀ level, e ≠ .noMemory level) → c = a) ∧
      ∀ level, e = .noMemory level →
        c.frames.free = 0 ∧ c.invalidated = a.invalidated ∧
        (∃ i rest way f made, a.BreaksOff v.way i rest way f ∧ made.length ≤ rest.length ∧
          Arena.Appended a c f (i :: rest) made) ∧
        (a.Unshared → ∀ w, translate c w = translate a w ∧ presentLeaf? c w = presentLeaf? a w) := by
  obtain ⟨result, c, hrun, hleaves⟩ :=
    map_leaves (hframes.sound hpool.startOf_total_le) hpool hreserved v p attributes
  refine ⟨result, c, hrun, fun e he => ?_⟩
  cases hleaves e he with
  | same unchanged frames => exact ⟨fun _ => unchanged, fun level h => absurd h (frames level)⟩
  | @chain level i rest way f made breaksOff chained length exhausted =>
    have hlength := breaksOff.length ▸ v.length_way.le
    have happended := chained.appended (hreserved way f (by omega) breaksOff.table)
    refine ⟨fun h => absurd rfl (h level), fun _ _ => ⟨exhausted, happended.invalidated,
      ⟨i, rest, way, f, made, breaksOff, length, happended⟩, fun hunshared w => ?_⟩⟩
    have hgap := breaksOff.gap hreserved v.length_way.le fun hw hf =>
      hunshared _ _ f hw (by omega) breaksOff.reached hf breaksOff.table
    have hsame := presentLeaf?_of_chained chained hgap.first hlength w
    exact ⟨by rw [translate_eq_map, translate_eq_map, hsame], hsame⟩

/-- With two frames, one of them for the root, one of the three tables of a page is made, and linked
in the root. -/
theorem map_fails_without_harm_of_two_frames :
    ∃ (a c : Arena) (level : LinkLevel) (f g : Frame), Begins a [] ∧ a.root = some f ∧
      map ⟨0x1000, by decide⟩ ⟨0x2000, by decide⟩ 0 a = .ok (.error (.noMemory level)) c ∧
      c.frames.free = 0 ∧ Arena.Appended a c f [0, 0, 0] [g] ∧
      ∀ w, translate c w = translate a w := by
  obtain ⟨new, hnew⟩ : ∃ new, FrameAllocator.ofBuffer ⟨⟨0x200000, by decide⟩, 0x2000⟩
      ⟨⟨0x1000, by decide⟩, 1⟩ ⟨#[0xff]⟩ = .ok new := ⟨_, rfl⟩
  obtain ⟨a, hbegins, hcount⟩ := exists_begins hnew (by decide)
  have hfree : a.frames.free = 1 := Nat.succ.inj hcount
  obtain ⟨_, r, hbeginning, -⟩ := hbegins.beginning
  obtain ⟨pool, place, hframes⟩ := hbegins.reachable
  have hwell := hbeginning.wellFormed
  have hmissing := hbeginning.missing (VirtAddr.way ⟨0x1000, by decide⟩)
  rw [VirtAddr.length_way] at hmissing
  obtain ⟨result, c, hrun, hharmless⟩ := map_fails_without_harm hframes hwell.addressable
    (fun _ _ => hwell.tree.reserved) ⟨0x1000, by decide⟩ ⟨0x2000, by decide⟩ 0
  obtain ⟨level, rfl⟩ : ∃ level, result = .error (.noMemory level) := by
    obtain ⟨b, -, -, ⟨level, herror, -⟩ | ⟨pt, -, hframes, -⟩⟩ :=
      map_cases (v := ⟨0x1000, by decide⟩) (p := ⟨0x2000, by decide⟩) hwell rfl (by decide) 0
    · exact ⟨level, (EStateM.Result.ok.inj (hrun.symm.trans herror)).1⟩
    · omega
  obtain ⟨-, hshort⟩ := hharmless _ rfl
  obtain ⟨hzero, -, ⟨i, rest, way, f, made, hbreak, -, happended⟩, hsame⟩ := hshort level rfl
  -- the root is the only table, so the way breaks off there
  obtain rfl : way = [] := by
    by_contra hne
    simpa [hbeginning.only hne] using hbreak.table
  obtain ⟨g, rfl⟩ : ∃ g, made = [g] := by
    rw [← List.length_eq_one_iff]
    have hmade := happended.count
    omega
  have hindices : i :: rest = [0, 0, 0] := by
    have hsplit := hbreak.split
    rw [List.append_nil] at hsplit
    rw [← List.reverse_reverse (i :: rest), ← hsplit]
    decide
  rw [hindices] at happended
  have hunshared : a.Unshared := fun _ _ _ hway hway' _ hf hf' => hwell.tree.unique hway hway' hf hf'
  exact ⟨a, c, level, f, g, hbegins, hbreak.table, hrun, hzero, happended,
    fun w => (hsame hunshared w).1⟩

end Paging

end KernelCore
