import KernelCore.Proofs.Paging.Mappings
import KernelCore.Proofs.Paging.TableFrames

/-!
# Access rights of pages

A processor lets a page be accessed as all entries on its way allow: for a write, or from user mode,
each of them has to permit it, and any of them can forbid execution. The links that the mapper makes
permit writing and nothing else, so a page is writable and executable as its leaf says, but never
open to user mode.
-/

namespace KernelCore

/-- What a processor may do with a page. -/
@[ext] structure Rights where
  writable : Bool
  user : Bool
  noExecute : Bool
deriving DecidableEq, Repr

namespace Rights

/-- What nothing forbids. -/
def full : Rights := ⟨true, true, false⟩

/-- What two entries on one way allow together. -/
def meet (r s : Rights) : Rights :=
  ⟨r.writable && s.writable, r.user && s.user, r.noExecute || s.noExecute⟩

end Rights

/-- What an entry allows: bits 1 and 2 permit writing and user mode, bit 63 forbids execution. -/
def Entry.rights (e : Entry) : Rights := ⟨e.bit 1, e.bit 2, e.bit 63⟩

/-- What the entries on a way allow together. -/
def Rights.ofEntries (entries : List Entry) : Rights :=
  entries.foldr (fun e r => e.rights.meet r) full

namespace Entry

theorem rights_link (f : Frame) : (link f).rights = ⟨true, false, false⟩ := by
  have hhigh : f.number.testBit 51 = false :=
    Nat.testBit_lt_two_pow (Nat.lt_of_lt_of_le f.lt (by decide))
  ext1
  · simp [rights, bit_link]
  · simp [rights, bit_link, Frame.testBit_base]
  · simp [rights, bit_link, Frame.testBit_base, hhigh]

theorem rights_leaf (p : PhysAddr) (attributes : UInt64) : (leaf p attributes).rights =
    ⟨true, attributes.toNat.testBit 2, attributes.toNat.testBit 63⟩ := by
  ext1 <;> simp [rights, bit_leaf]

end Entry

/-- Links permit writing and nothing else, however many there are. -/
theorem Rights.ofEntries_links {entries : List Entry} (hne : entries ≠ [])
    (hlinks : ∀ e ∈ entries, ∃ f, e = .link f) : ofEntries entries = ⟨true, false, false⟩ := by
  induction entries with
  | nil => contradiction
  | cons e rest ih =>
    obtain ⟨f, rfl⟩ := hlinks e List.mem_cons_self
    have hcons : ofEntries (.link f :: rest) = (Entry.link f).rights.meet (ofEntries rest) := rfl
    rw [hcons, Entry.rights_link]
    rcases eq_or_ne rest [] with rfl | hrest
    · rfl
    · rw [ih hrest fun e he => hlinks e (List.mem_cons_of_mem _ he)]
      rfl

namespace Arena

variable {a : Arena} {f : Frame} {way : List TableIndex}

/-- The entries along a way, the last one first, if there are tables for all of them. -/
def trail? (a : Arena) : List TableIndex → Option (List Entry)
  | [] => some []
  | i :: way => (a.tableAt? way).bind fun f => (a.trail? way).map (a.cell f i :: ·)

/-- The way to a table is made of links. -/
theorem Plain.trail? (h : Plain a) (hway : way.length ≤ 3) (hf : a.tableAt? way = some f) :
    ∃ links, a.trail? way = some links ∧ links.length = way.length ∧
      ∀ e ∈ links, ∃ g, e = .link g := by
  induction way generalizing f with
  | nil => exact ⟨[], rfl, rfl, by simp⟩
  | cons i way ih =>
    obtain ⟨g, hg, hlink⟩ := h.link_of_table hway hf
    obtain ⟨links, htrail, hlength, hlinks⟩ := ih (by simp at hway; omega) hg
    refine ⟨a.cell g i :: links, ?_, by simp [hlength], ?_⟩
    · rw [Arena.trail?, hg, Option.bind_some, htrail, Option.map_some]
    · intro e he
      rcases List.mem_cons.mp he with rfl | he
      · exact ⟨f, hlink⟩
      · exact hlinks e he

end Arena

namespace Paging

variable {a b c : Arena} {v : VirtAddr} {p : PhysAddr} {attributes : UInt64} {trace : Trace}

/-- The four entries on the way to a page allow writing, no access from user mode, and execution
unless the attributes forbid it. Bit 2 of the attributes reaches the leaf and no further. -/
def Granted (a : Arena) (v : VirtAddr) (attributes : UInt64) : Prop :=
  ∃ leaf links, a.trail? (v.leafIndex :: v.way) = some (leaf :: links) ∧ links.length = 3 ∧
    Paging.leaf a v = .ok (.ok leaf) ∧
    Rights.ofEntries (leaf :: links) = ⟨true, false, attributes.toNat.testBit 63⟩ ∧
    leaf.bit 2 = attributes.toNat.testBit 2 ∧ ∀ e ∈ links, e.bit 2 = false

theorem Agrees.granted (h : Agrees b (PageMap.ofTrace trace)) (hb : Tidy b)
    (hmapped : Mapping.ofTrace trace v.page = some (p, attributes)) : Granted b v attributes := by
  obtain ⟨pt, hpt, hcell⟩ := h.exists_leaf hmapped
  obtain ⟨links, htrail, hlength, hlinks⟩ := hb.plain.trail? v.length_way.le hpt
  have hne : links ≠ [] := fun hnil => by simp [hnil, v.length_way] at hlength
  refine ⟨.leaf p attributes, links, ?_, hlength.trans v.length_way, ?_, ?_, ?_, ?_⟩
  · rw [Arena.trail?, hpt, Option.bind_some, htrail, Option.map_some, hcell]
  · rw [leaf, lookup_bind_ok (leafTable_of_some hpt),
      entry_eq_ok (hb.tree.reached v.length_way.le hpt), hcell]
  · have hcons : Rights.ofEntries (.leaf p attributes :: links) =
        (Entry.leaf p attributes).rights.meet (Rights.ofEntries links) := rfl
    rw [hcons, Entry.rights_leaf, Rights.ofEntries_links hne hlinks]
    simp [Rights.meet]
  · exact congrArg Rights.user (Entry.rights_leaf p attributes)
  · intro e he
    obtain ⟨g, rfl⟩ := hlinks e he
    exact congrArg Rights.user (Entry.rights_link g)

/-- A page has the rights that the kernel means its pages to have. Below a root that started out
empty, whatever was mapped before through the same tables or is mapped and unmapped elsewhere
afterwards: a page that is mapped can be written, cannot be executed exactly if its attributes say
so, and is out of reach of user mode whatever its attributes say, which its leaf repeats and its
links do not. -/
theorem Run.mapped_pages_have_rights (hopens : Opens a) (hrun : Run a trace b) :
    (∀ v p attributes c, Paging.map v p attributes b = .ok (.ok ()) c → Granted c v attributes) ∧
      ∀ (v : VirtAddr) p attributes, Mapping.ofTrace trace v.page = some (p, attributes) →
        Granted b v attributes := by
  obtain ⟨hb, hagrees⟩ := hrun.tidy_agrees hopens.tidy hopens.agrees
  refine ⟨fun v p attributes c hmap => ?_, fun v p attributes => hagrees.granted hb⟩
  have hnext : Run a ((.map v p attributes, .ok ()) :: trace) c := hrun.next trivial hmap
  obtain ⟨hc, hagrees'⟩ := hnext.tidy_agrees hopens.tidy hopens.agrees
  exact hagrees'.granted hc mapping_self

/-- With the attributes for user mode and against execution, bits 2 and 63, a page can be written and
nothing else. -/
theorem Run.mapped_pages_have_rights_of_one_page :
    ∃ (a b : Arena) (entries : List Entry), Opens a ∧
      map ⟨0x1000, by decide⟩ ⟨0x5000, by decide⟩ 0x8000000000000004 a = .ok (.ok ()) b ∧
      b.trail? (VirtAddr.leafIndex ⟨0x1000, by decide⟩ :: VirtAddr.way ⟨0x1000, by decide⟩) =
        some entries ∧
      Rights.ofEntries entries = ⟨true, false, true⟩ := by
  obtain ⟨a, b, hopens, hmap⟩ := exists_mapped (v := ⟨0x1000, by decide⟩)
    (p := ⟨0x5000, by decide⟩) rfl (by decide) 0x8000000000000004
  obtain ⟨hgranted, -⟩ := (Run.start (a := a)).mapped_pages_have_rights hopens
  obtain ⟨leaf, links, htrail, -, -, hrights, -⟩ := hgranted _ _ _ _ hmap
  have hattribute : (0x8000000000000004 : UInt64).toNat.testBit 63 = true := by decide
  rw [hattribute] at hrights
  exact ⟨a, b, leaf :: links, hopens, hmap, htrail, hrights⟩

/-- The attribute for user mode, bit 2, does not make a page accessible from there: the leaf has it,
and the links on the way have not. -/
theorem user_attribute_stops_at_leaf :
    ∃ (a b : Arena) (leaf : Entry) (links : List Entry), Opens a ∧
      map ⟨0x1000, by decide⟩ ⟨0x5000, by decide⟩ 4 a = .ok (.ok ()) b ∧
      b.trail? (VirtAddr.leafIndex ⟨0x1000, by decide⟩ :: VirtAddr.way ⟨0x1000, by decide⟩) =
        some (leaf :: links) ∧
      leaf.bit 2 = true ∧ (∀ e ∈ links, e.bit 2 = false) ∧
      (Rights.ofEntries (leaf :: links)).user = false := by
  obtain ⟨a, b, hopens, hmap⟩ := exists_mapped (v := ⟨0x1000, by decide⟩)
    (p := ⟨0x5000, by decide⟩) rfl (by decide) 4
  have hrun : Run a [(.map ⟨0x1000, by decide⟩ ⟨0x5000, by decide⟩ 4, .ok ())] b :=
    .next .start trivial hmap
  obtain ⟨hb, hagrees⟩ := hrun.tidy_agrees hopens.tidy hopens.agrees
  obtain ⟨leaf, links, htrail, -, -, hrights, huser, hlinks⟩ := hagrees.granted hb mapping_self
  exact ⟨a, b, leaf, links, hopens, hmap, htrail, huser, hlinks, congrArg Rights.user hrights⟩

end Paging

end KernelCore
