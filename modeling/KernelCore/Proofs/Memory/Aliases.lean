import KernelCore.Machine.Tables
import KernelCore.Proofs.Memory.Words

/-!
# Memory behind the direct map

The kernel works on physical memory at its aliases. Where distinct addresses have distinct aliases,
an access to one stretch of physical memory leaves every other stretch alone, so what is known about
physical addresses carries over to the memory that is accessed. The tables of a frame that is in
such memory are read and written without a fault.
-/

namespace KernelCore

namespace Memory

variable {m k : Memory} {a c : ℕ}

theorem word_eq_zero (h : ∀ c, a ≤ c → c < a + 8 → m.byte c = 0) : m.word a = 0 := by
  have hzero : ∀ c, a ≤ c → c < a + 8 → m.byte c = zeroed.byte c := by
    intro c h₁ h₂
    rw [h c h₁ h₂, zeroed, byte_filled]
  rw [word_congr hzero]
  simp [word, number, zeroed]

theorem word_clear {n : ℕ} (h₁ : a ≤ c) (h₂ : c + 8 ≤ a + n) : (m.clear a n).word c = 0 := by
  apply word_eq_zero
  intro d h₃ h₄
  rw [byte_clear, if_pos (by omega)]

end Memory

namespace Frame

/-- Addresses of the bytes of a frame. -/
def bytes (f : Frame) : Set ℕ := Set.Ico f.base.val (f.base.val + 4096)

theorem base_mem_bytes (f : Frame) : f.base.val ∈ f.bytes := by
  rw [bytes, Set.mem_Ico]
  omega

theorem eq_of_mem_bytes {f g : Frame} {x : ℕ} (hf : x ∈ f.bytes) (hg : x ∈ g.bytes) : f = g := by
  simp only [bytes, base, Set.mem_Ico] at hf hg
  ext1
  omega

end Frame

namespace DirectMap

/-- Virtual address at which the kernel works on a physical one. -/
def place (map : DirectMap) (x : ℕ) : ℕ :=
  match (PhysAddr.ofNat x).bind map.toVirt with
  | .ok v => v.val
  | .error _ => 0

/-- A physical address below the offset is reached at the offset, where that is an address. -/
theorem toVirt_of_below {map : DirectMap} {p : PhysAddr} {v : VirtAddr}
    (hbelow : p.val < map.offset.toNat) (hv : v.val = map.offset.toNat + p.val) :
    map.toVirt p = .ok v := by
  have hlt := v.lt
  have hsum : addWithin UInt64.size map.offset.toNat p.val = .ok v.val :=
    addWithin_eq_ok_iff.mpr ⟨by rw [UInt64.size]; omega, hv⟩
  rw [toVirt, if_neg (by omega), hsum]
  exact congrArg Except.ok v.truncate_of_canonical

/-- All of `ram` is reached through the direct map, in the memory `span` that is there. -/
structure Reaches (map : DirectMap) (span : Span) (ram : Set ℕ) : Prop where
  visible : ∀ x ∈ ram, ∃ (p : PhysAddr) (v : VirtAddr), p.val = x ∧ map.toVirt p = .ok v ∧
    span.covers v.val 1 = true
  distinct : Set.InjOn map.place ram
  consecutive : ∀ x, x ∈ ram → x + 1 ∈ ram → map.place (x + 1) = map.place x + 1

theorem place_eq {map : DirectMap} {p : PhysAddr} {v : VirtAddr} (h : map.toVirt p = .ok v) :
    map.place p.val = v.val := by
  have hp : PhysAddr.ofNat p.val = .ok p := dif_pos p.lt
  simp only [place, hp, Except.bind, h]

namespace Reaches

variable {map : DirectMap} {span : Span} {ram : Set ℕ} {b n : ℕ}

theorem covers (h : map.Reaches span ram) {x : ℕ} (hx : x ∈ ram) :
    span.covers (map.place x) 1 = true := by
  obtain ⟨p, v, rfl, hv, hcovers⟩ := h.visible x hx
  rw [place_eq hv]
  exact hcovers

theorem toVirt (h : map.Reaches span ram) {p : PhysAddr} (hp : p.val ∈ ram) :
    ∃ v, map.toVirt p = .ok v ∧ v.val = map.place p.val := by
  obtain ⟨q, v, hq, hv, -⟩ := h.visible p.val hp
  obtain rfl : q = p := PhysAddr.ext hq
  exact ⟨v, hv, (place_eq hv).symm⟩

theorem place_add (h : map.Reaches span ram) (hin : Set.Ico b (b + n) ⊆ ram) {k : ℕ}
    (hk : k < n) : map.place (b + k) = map.place b + k := by
  induction k with
  | zero => rfl
  | succ k ih =>
    have hthis : b + k ∈ ram := hin ⟨by omega, by omega⟩
    have hnext : b + k + 1 ∈ ram := hin ⟨by omega, by omega⟩
    have hstep := h.consecutive (b + k) hthis hnext
    rw [ih (by omega)] at hstep
    exact hstep

/-- An address outside a stretch of memory has its alias outside that of the stretch. -/
theorem place_outside (h : map.Reaches span ram) (hin : Set.Ico b (b + n) ⊆ ram) {x : ℕ}
    (hx : x ∈ ram) (hout : x ∉ Set.Ico b (b + n)) :
    map.place x < map.place b ∨ map.place b + n ≤ map.place x := by
  apply Decidable.byContradiction
  intro hinside
  obtain ⟨k, hk⟩ : ∃ k, map.place x = map.place b + k := ⟨map.place x - map.place b, by omega⟩
  have hlt : k < n := by omega
  have hmem : b + k ∈ Set.Ico b (b + n) := ⟨by omega, by omega⟩
  have hsame : map.place x = map.place (b + k) := by rw [h.place_add hin hlt, hk]
  have heq : x = b + k := h.distinct hx (hin hmem) hsame
  exact hout (heq ▸ hmem)

theorem covers_stretch (h : map.Reaches span ram) (hin : Set.Ico b (b + n) ⊆ ram) (hn : 0 < n) :
    span.covers (map.place b) n = true := by
  have hfirst := h.covers (hin ⟨le_rfl, by omega⟩)
  have hlast := h.covers (x := b + (n - 1)) (hin ⟨by omega, by omega⟩)
  rw [h.place_add hin (by omega)] at hlast
  rw [Span.covers_iff] at hfirst hlast ⊢
  omega

end Reaches

end DirectMap

namespace Machine

open DirectMap

/-- The byte of physical memory that the kernel sees at an address. -/
def physical (m : Machine) (map : DirectMap) (x : ℕ) : UInt8 := m.memory.byte (map.place x)

/-- The direct map through which the machine `m` reaches its tables makes all of `ram` visible. -/
structure Sees (m : Machine) (map : DirectMap) (ram : Set ℕ) : Prop where
  mapper : m.mapper = some map
  reaches : map.Reaches m.ram ram

variable {m m' : Machine} {map : DirectMap} {ram : Set ℕ} {f : Frame} {i j : TableIndex} {e : Entry}

/-- A write inside a stretch of memory is not seen outside it. -/
theorem Sees.physical_eq (h : Sees m map ram) {b n : ℕ} (hin : Set.Ico b (b + n) ⊆ ram)
    (hwritten : ∀ c, c < map.place b ∨ map.place b + n ≤ c → m'.memory.byte c = m.memory.byte c)
    {x : ℕ} (hx : x ∈ ram) (hout : x ∉ Set.Ico b (b + n)) :
    m'.physical map x = m.physical map x :=
  hwritten _ (h.reaches.place_outside hin hx hout)

theorem Sees.tableAddress?_eq (h : Sees m map ram) (hf : f.bytes ⊆ ram) :
    m.tableAddress? f = .ok (if map.place f.base.val = 0 then none
      else some (map.place f.base.val)) := by
  obtain ⟨v, hv, hval⟩ := h.reaches.toVirt (hf f.base_mem_bytes)
  simp only [tableAddress?, h.mapper, hv, VirtAddr.isNull, hval, beq_iff_eq]

theorem Sees.covers_entry (h : Sees m map ram) (hf : f.bytes ⊆ ram) (i : TableIndex) :
    m.ram.covers (map.place f.base.val + 8 * i.val) 8 = true := by
  have htable := h.reaches.covers_stretch hf (by decide)
  have hi := i.isLt
  rw [Span.covers_iff] at htable ⊢
  omega

/-- A table at virtual address zero is out of reach. -/
theorem Sees.readEntry_eq (h : Sees m map ram) (hf : f.bytes ⊆ ram) (i : TableIndex) :
    m.readEntry f i = .ok (if map.place f.base.val = 0 then none
      else some ⟨m.memory.word (map.place f.base.val + 8 * i.val)⟩) := by
  by_cases hzero : map.place f.base.val = 0
  · simp only [readEntry, h.tableAddress?_eq hf, if_pos hzero]
  · simp only [readEntry, h.tableAddress?_eq hf, if_neg hzero, if_pos (h.covers_entry hf i)]

/-- An entry is read from the bytes of its table alone. -/
theorem Sees.readEntry_congr (h : Sees m map ram) (h' : Sees m' map ram) (hf : f.bytes ⊆ ram)
    (hsame : ∀ x ∈ f.bytes, m'.physical map x = m.physical map x) (i : TableIndex) :
    m'.readEntry f i = m.readEntry f i := by
  have hword : m'.memory.word (map.place f.base.val + 8 * i.val) =
      m.memory.word (map.place f.base.val + 8 * i.val) := by
    apply Memory.word_congr
    intro c h₁ h₂
    have hi := i.isLt
    obtain ⟨k, rfl⟩ : ∃ k, c = map.place f.base.val + k := ⟨c - map.place f.base.val, by omega⟩
    have hk : k < 4096 := by omega
    have hbyte := hsame (f.base.val + k) ⟨by omega, by omega⟩
    rw [physical, physical, h.reaches.place_add hf hk] at hbyte
    exact hbyte
  rw [h.readEntry_eq hf, h'.readEntry_eq hf, hword]

/-- Nothing that tables and their allocator rest on differs, but for the memory of a frame. -/
structure Touches (map : DirectMap) (t : Frame) (m m' : Machine) : Prop where
  frames : m'.frames = m.frames
  mapper : m'.mapper = m.mapper
  span : m'.ram = m.ram
  processor : m'.processor = m.processor
  outside : ∀ c, c < map.place t.base.val ∨ map.place t.base.val + 4096 ≤ c →
    m'.memory.byte c = m.memory.byte c

theorem touches_of_outside {t : Frame} {memory : Memory}
    (h : ∀ c, c < map.place t.base.val ∨ map.place t.base.val + 4096 ≤ c →
      memory.byte c = m.memory.byte c) : Touches map t m { m with memory } :=
  ⟨rfl, rfl, rfl, rfl, h⟩

theorem Touches.sees {t : Frame} (h : Touches map t m m') (hs : Sees m map ram) :
    Sees m' map ram := by
  refine ⟨h.mapper.trans hs.mapper, ?_⟩
  rw [h.span]
  exact hs.reaches

theorem Touches.readEntry_of_ne {t : Frame} (h : Touches map t m m') (hs : Sees m map ram)
    (ht : t.bytes ⊆ ram) (hf : f.bytes ⊆ ram) (hne : f ≠ t) (i : TableIndex) :
    m'.readEntry f i = m.readEntry f i := by
  apply hs.readEntry_congr (h.sees hs) hf
  intro x hx
  apply hs.physical_eq ht h.outside (hf hx)
  intro hxt
  exact hne (Frame.eq_of_mem_bytes hx hxt)

theorem Sees.writeEntry_cases (h : Sees m map ram) (hf : f.bytes ⊆ ram) (i : TableIndex)
    (e : Entry) : m.writeEntry f i e = .ok none ∨
      ∃ m', m.writeEntry f i e = .ok (some m') ∧ Touches map f m m' ∧
        ∀ j, m'.readEntry f j = if j = i then .ok (some e) else m.readEntry f j := by
  by_cases hzero : map.place f.base.val = 0
  · exact .inl (by simp only [writeEntry, h.tableAddress?_eq hf, if_pos hzero])
  · have htouches : Touches map f m
        { m with memory := m.memory.setWord (map.place f.base.val + 8 * i.val) e.bits } := by
      apply touches_of_outside
      intro c hc
      have hi := i.isLt
      exact Memory.byte_setWord_of_disjoint e.bits (by omega)
    refine .inr ⟨_, ?_, htouches, fun j => ?_⟩
    · simp only [writeEntry, h.tableAddress?_eq hf, if_neg hzero, if_pos (h.covers_entry hf i)]
    · rw [(htouches.sees h).readEntry_eq hf, h.readEntry_eq hf, if_neg hzero, if_neg hzero]
      split
      · rename_i hij
        rw [hij, Memory.word_setWord]
      · rename_i hij
        have hapart : j.val ≠ i.val := fun hval => hij (Fin.ext hval)
        rw [Memory.word_setWord_of_disjoint]
        omega

theorem Sees.clearTable_cases (h : Sees m map ram) (hf : f.bytes ⊆ ram) :
    m.clearTable f = .ok none ∨
      ∃ m', m.clearTable f = .ok (some m') ∧ Touches map f m m' ∧
        ∀ j, m'.readEntry f j = .ok (some .absent) := by
  by_cases hzero : map.place f.base.val = 0
  · exact .inl (by simp only [clearTable, h.tableAddress?_eq hf, if_pos hzero])
  · have htouches : Touches map f m
        { m with memory := m.memory.clear (map.place f.base.val) 4096 } := by
      apply touches_of_outside
      intro c hc
      rw [Memory.byte_clear, if_neg (by omega)]
    have hcovers := h.reaches.covers_stretch hf (by decide)
    refine .inr ⟨_, ?_, htouches, fun j => ?_⟩
    · simp only [clearTable, h.tableAddress?_eq hf, if_neg hzero, if_pos hcovers]
    · have hj := j.isLt
      rw [(htouches.sees h).readEntry_eq hf, if_neg hzero, Memory.word_clear (by omega) (by omega)]
      rfl

end Machine

end KernelCore
