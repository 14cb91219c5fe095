import KernelCore.Frames.Allocator
import Mathlib.Data.Set.Card

/-!
# Accounts of the frame allocator

The free count is exact, and every frame of the pool has a physical address. Both hold for a new
allocator and are kept by whatever is done to it, so each operation is described here once, by what
it does to the frames that are out: it cannot stop the kernel, and it takes a frame only if that
frame was free.
-/

namespace KernelCore

namespace FrameAllocator

/-- Indices of the frames that are not handed out. -/
def vacancies (a : FrameAllocator) : Finset ℕ :=
  (Finset.range a.total).filter fun i => a.isTaken i = false

/-- Start address of the frame of an index. -/
def startOf (a : FrameAllocator) (i : ℕ) : ℕ := a.region.base.val + i * 4096

/-- Start addresses of the frames that are handed out. -/
def lent (a : FrameAllocator) : Set ℕ := a.startOf '' {i | a.isTaken i = true}

/-- What holds of an allocator however it is used. -/
structure Sound (a : FrameAllocator) : Prop where
  aligned : a.region.base.val % 4096 = 0
  /-- No frame of the pool ends past the physical addresses. -/
  inMemory : a.region.base.val + a.total * 4096 ≤ 0x10000000000000
  counted : a.free = a.vacancies.card

variable {a b : FrameAllocator}

theorem isTaken_lt {i : ℕ} (h : a.isTaken i = true) : i < a.total := by
  simp only [isTaken, Bool.and_eq_true, decide_eq_true_eq] at h
  exact h.1

theorem mem_vacancies {i : ℕ} : i ∈ a.vacancies ↔ i < a.total ∧ a.isTaken i = false := by
  simp [vacancies]

theorem startOf_injective (a : FrameAllocator) : Function.Injective a.startOf := by
  intro i j h
  simp only [startOf] at h
  omega

theorem mem_lent {x : ℕ} : x ∈ a.lent ↔ ∃ i, a.isTaken i = true ∧ a.startOf i = x := Iff.rfl

theorem startOf_mem_lent {i : ℕ} : a.startOf i ∈ a.lent ↔ a.isTaken i = true :=
  (startOf_injective a).mem_set_image

/-- Every frame of the pool is either free or out. -/
theorem vacancies_card_add_lent (a : FrameAllocator) :
    a.vacancies.card + a.lent.ncard = a.total := by
  have htaken : {i | a.isTaken i = true} =
      ↑((Finset.range a.total).filter fun i => ¬ a.isTaken i = false) := by
    ext i
    simp only [Set.mem_ofPred_eq, Finset.coe_filter, Finset.mem_range, Bool.not_eq_false]
    exact ⟨fun h => ⟨isTaken_lt h, h⟩, fun h => h.2⟩
  have hlent : a.lent.ncard =
      ((Finset.range a.total).filter fun i => ¬ a.isTaken i = false).card := by
    rw [lent, Set.ncard_image_of_injective _ (startOf_injective a), htaken, Set.ncard_coe_finset]
  have hsplit := Finset.card_filter_add_card_filter_not (s := Finset.range a.total)
    fun i => a.isTaken i = false
  rw [Finset.card_range] at hsplit
  rw [hlent, vacancies, hsplit]

theorem Sound.free_add_lent (h : Sound a) : a.free + a.lent.ncard = a.total := by
  rw [h.counted, vacancies_card_add_lent]

theorem take_eq {i : ℕ} (hi : i < a.total) (hfree : a.isTaken i = false) :
    (a.take i).free = a.free - 1 ∧ (a.take i).vacancies = a.vacancies.erase i := by
  refine ⟨by simp [take, hi, hfree], ?_⟩
  ext j
  rw [Finset.mem_erase, mem_vacancies, mem_vacancies, total_take, isTaken_take]
  by_cases hij : i = j
  · subst hij; simp [hi]
  · simp [hij, Ne.symm hij]

theorem take_eq_self {i : ℕ} (h : ¬ (i < a.total ∧ a.isTaken i = false)) : a.take i = a := by
  unfold take
  rw [if_neg]
  simpa using h

theorem release_eq_self {i : ℕ} (h : ¬ a.isTaken i = true) : a.release i = a := by
  simp [release, h]

/-- Marking a frame keeps the free count exact, whether the frame was free or not. -/
theorem counted_take (h : a.free = a.vacancies.card) (i : ℕ) :
    (a.take i).free = (a.take i).vacancies.card := by
  by_cases hi : i < a.total ∧ a.isTaken i = false
  · obtain ⟨hfree, hvacant⟩ := take_eq hi.1 hi.2
    rw [hfree, hvacant, Finset.card_erase_of_mem (mem_vacancies.mpr hi), h]
  · rw [take_eq_self hi, h]

theorem counted_release (h : a.free = a.vacancies.card) (i : ℕ) :
    (a.release i).free = (a.release i).vacancies.card := by
  by_cases ht : a.isTaken i = true
  · have hfree : (a.release i).free = a.free + 1 := by simp [FrameAllocator.release, ht]
    have hvacant : (a.release i).vacancies = insert i a.vacancies := by
      ext j
      rw [Finset.mem_insert, mem_vacancies, mem_vacancies, total_release, isTaken_release]
      by_cases hij : i = j
      · subst hij; simp [isTaken_lt ht]
      · simp [hij, Ne.symm hij]
    have hnew : i ∉ a.vacancies := by simp [mem_vacancies, ht]
    rw [hfree, hvacant, Finset.card_insert_of_notMem hnew, h]
  · rw [release_eq_self ht, h]

theorem Sound.take (h : Sound a) (i : ℕ) : Sound (a.take i) := by
  refine ⟨?_, ?_, counted_take h.counted i⟩
  · rw [region_take]; exact h.aligned
  · rw [region_take, total_take]; exact h.inMemory

theorem Sound.takeRun (h : Sound a) (start n : ℕ) : Sound (a.takeRun start n) := by
  induction n generalizing a start with
  | zero => exact h
  | succ n ih => exact ih (h.take start) (start + 1)

theorem Sound.release (h : Sound a) (i : ℕ) : Sound (a.release i) := by
  refine ⟨?_, ?_, counted_release h.counted i⟩
  · rw [region_release]; exact h.aligned
  · rw [region_release, total_release]; exact h.inMemory

@[simp] theorem bitmapRegion_take (a : FrameAllocator) (i : ℕ) :
    (a.take i).bitmapRegion = a.bitmapRegion := by
  unfold take; split <;> rfl

@[simp] theorem bitmapRegion_takeRun (a : FrameAllocator) (i n : ℕ) :
    (a.takeRun i n).bitmapRegion = a.bitmapRegion := by
  induction n generalizing a i with
  | zero => rfl
  | succ n ih => rw [takeRun, ih, bitmapRegion_take]

@[simp] theorem bitmapRegion_release (a : FrameAllocator) (i : ℕ) :
    (a.release i).bitmapRegion = a.bitmapRegion := by
  unfold release; split <;> rfl

theorem deallocate_eq (a : FrameAllocator) (p : PhysAddr) :
    a.deallocate p = a ∨ ∃ i, a.deallocate p = a.release i := by
  unfold deallocate
  split
  · split
    · exact .inr ⟨_, rfl⟩
    · exact .inl rfl
  · exact .inl rfl

@[simp] theorem region_deallocate (a : FrameAllocator) (p : PhysAddr) :
    (a.deallocate p).region = a.region := by
  rcases deallocate_eq a p with h | ⟨i, h⟩ <;> simp [h]

@[simp] theorem bitmapRegion_deallocate (a : FrameAllocator) (p : PhysAddr) :
    (a.deallocate p).bitmapRegion = a.bitmapRegion := by
  rcases deallocate_eq a p with h | ⟨i, h⟩ <;> simp [h]

theorem Sound.deallocate (h : Sound a) (p : PhysAddr) : Sound (a.deallocate p) := by
  rcases deallocate_eq a p with hp | ⟨i, hp⟩
  · rw [hp]; exact h
  · rw [hp]; exact h.release i

/-! ## What is out after each operation -/

theorem lent_take {i : ℕ} (hi : i < a.total) : (a.take i).lent = insert (a.startOf i) a.lent := by
  ext x
  simp only [Set.mem_insert_iff, mem_lent, isTaken_take, startOf, region_take]
  constructor
  · rintro ⟨j, hj, rfl⟩
    by_cases hij : i = j
    · exact .inl (by rw [hij])
    · exact .inr ⟨j, by simpa [hij] using hj, rfl⟩
  · rintro (rfl | ⟨j, hj, rfl⟩)
    · exact ⟨i, by simp [hi], rfl⟩
    · exact ⟨j, by simp [hj], rfl⟩

theorem lent_takeRun {start n : ℕ} (h : start + n ≤ a.total) :
    (a.takeRun start n).lent = a.lent ∪ {x | ∃ i < n, x = a.startOf (start + i)} := by
  induction n generalizing a start with
  | zero => simp [takeRun]
  | succ n ih =>
    rw [takeRun, ih (by rw [total_take]; omega), lent_take (by omega)]
    ext x
    simp only [Set.mem_union, Set.mem_insert_iff, Set.mem_ofPred_eq, startOf, region_take]
    constructor
    · rintro ((rfl | hx) | ⟨i, hi, rfl⟩)
      · exact .inr ⟨0, by omega, rfl⟩
      · exact .inl hx
      · exact .inr ⟨i + 1, by omega, by omega⟩
    · rintro (hx | ⟨i, hi, rfl⟩)
      · exact .inl (.inr hx)
      · rcases i with - | i
        · exact .inl (.inl rfl)
        · exact .inr ⟨i, by omega, by omega⟩

theorem indexOf?_eq_some {p : PhysAddr} {i : ℕ} (haligned : a.region.base.val % 4096 = 0)
    (hp : p.val % 4096 = 0) : a.indexOf? p = some i ↔ i < a.total ∧ p.val = a.startOf i := by
  simp only [indexOf?, Option.ite_none_right_eq_some, Option.some.injEq, startOf]
  omega

/-- A frame is in use exactly if it is out. -/
theorem isUsed_iff (h : Sound a) {f : Frame} : a.isUsed f = true ↔ f.base.val ∈ a.lent := by
  have hf : f.base.val % 4096 = 0 := by simp [Frame.base]
  rw [isUsed, mem_lent]
  cases hi : a.indexOf? f.base with
  | none =>
    refine ⟨fun hu => absurd hu (by simp), ?_⟩
    rintro ⟨i, ht, hx⟩
    have := (indexOf?_eq_some h.aligned hf).mpr ⟨isTaken_lt ht, hx.symm⟩
    simp [hi] at this
  | some i =>
    obtain ⟨-, hx⟩ := (indexOf?_eq_some h.aligned hf).mp hi
    rw [hx]
    exact (startOf_mem_lent (a := a) (i := i)).symm

theorem startOf_add_le_stop {i : ℕ} (hi : i < a.total) :
    a.startOf i + 4096 ≤ a.region.base.val + a.region.length.toNat := by
  have hcount : a.total * 4096 ≤ a.region.length.toNat := Nat.div_mul_le_self _ _
  simp only [startOf]
  omega

theorem base_injective {f g : Frame} (h : f.base.val = g.base.val) : f = g := by
  ext1
  simp only [Frame.base] at h
  omega

/-- The frames that are out are counted as used. -/
theorem Sound.used_eq (h : Sound a) : a.used = {f : Frame | a.isUsed f = true}.ncard := by
  have haligned := h.aligned
  have hmemory := h.inMemory
  have himage : a.lent = (fun f : Frame => f.base.val) '' {f : Frame | a.isUsed f = true} := by
    ext x
    simp only [Set.mem_image, Set.mem_ofPred_eq, isUsed_iff h]
    refine ⟨?_, ?_⟩
    · rintro ⟨i, ht, rfl⟩
      have hi := isTaken_lt ht
      have hbase : a.startOf i / 4096 * 4096 = a.startOf i := by rw [startOf]; omega
      refine ⟨⟨a.startOf i / 4096, by rw [startOf]; omega⟩, ?_, hbase⟩
      simp only [Frame.base, hbase]
      exact ⟨i, ht, rfl⟩
    · rintro ⟨f, hf, rfl⟩
      exact hf
  have hcount := h.free_add_lent
  rw [himage, Set.ncard_image_of_injective _ fun f g => base_injective] at hcount
  rw [used]
  omega

theorem startOf_total_le (a : FrameAllocator) :
    a.startOf a.total ≤ a.region.base.val + a.region.length.toNat := by
  have hcount : a.total * 4096 ≤ a.region.length.toNat := Nat.div_mul_le_self _ _
  simp only [startOf]
  omega

/-- An address that is given back is that of one frame, or of none. -/
theorem isTaken_deallocate_iff (haligned : a.region.base.val % 4096 = 0) (p : PhysAddr) (j : ℕ) :
    (a.deallocate p).isTaken j = true ↔ a.isTaken j = true ∧ p.val ≠ a.startOf j := by
  have hforeign : (∀ i < a.total, p.val ≠ a.startOf i) →
      (a.isTaken j = true ↔ a.isTaken j = true ∧ p.val ≠ a.startOf j) := fun hp =>
    ⟨fun hj => ⟨hj, hp j (isTaken_lt hj)⟩, fun hj => hj.1⟩
  rw [deallocate]
  split
  · rename_i hp
    simp only [Bool.and_eq_true, PhysAddr.isAligned, beq_iff_eq] at hp
    cases hi : a.indexOf? p with
    | some i =>
      obtain ⟨-, hx⟩ := (indexOf?_eq_some haligned hp.2).mp hi
      have hsame : p.val = a.startOf j ↔ i = j := by
        rw [hx, (startOf_injective a).eq_iff]
      simp [isTaken_release, hsame]
    | none =>
      refine hforeign fun i hi' hx => ?_
      have := (indexOf?_eq_some haligned hp.2).mpr ⟨hi', hx⟩
      simp [hi] at this
  · rename_i hp
    refine hforeign fun i hi hx => hp ?_
    have hstop := startOf_add_le_stop hi
    have haddress := p.lt
    simp only [startOf] at hx hstop
    rw [Bool.and_eq_true, Extent.contains_iff, PhysAddr.isAligned, beq_iff_eq, Extent.stop]
    omega

/-- Only the address of a frame that is out has an effect when it is given back. -/
theorem lent_deallocate (h : Sound a) (p : PhysAddr) :
    (a.deallocate p).lent = a.lent \ {p.val} := by
  ext x
  simp only [Set.mem_sdiff, Set.mem_singleton_iff, mem_lent, isTaken_deallocate_iff h.aligned,
    startOf, region_deallocate]
  constructor
  · rintro ⟨j, ⟨hj, hp⟩, rfl⟩
    exact ⟨⟨j, hj, rfl⟩, Ne.symm hp⟩
  · rintro ⟨⟨j, hj, rfl⟩, hp⟩
    exact ⟨j, ⟨hj, Ne.symm hp⟩, rfl⟩

/-! ## Operations -/

/-- No frame of a sound allocator is out of reach of the physical addresses. -/
theorem addressOf_eq_ok (h : Sound a) {i : ℕ} (hi : i < a.total) :
    ∃ p : PhysAddr, p.val = a.startOf i ∧ a.addressOf i = .ok p := by
  have hmemory := h.inMemory
  have hlt : a.region.base.val + i * 4096 < 0x10000000000000 := by omega
  exact ⟨⟨_, hlt⟩, rfl, PhysAddr.add_eq_ok hlt⟩

theorem eq_startOf_of_addressOf {i : ℕ} {p : PhysAddr} (h : a.addressOf i = .ok p) :
    p.val = a.startOf i := by
  simp only [addressOf, PhysAddr.add, bind, Except.bind] at h
  split at h
  · contradiction
  · rename_i n hn
    obtain ⟨-, rfl⟩ := addWithin_eq_ok_iff.mp hn
    rw [PhysAddr.ofNat] at h
    split at h
    · obtain rfl := Except.ok.inj h
      rfl
    · contradiction

theorem reserveFrame_eq_none (h : Sound a) : a.reserveFrame = none ↔ a.free = 0 := by
  rw [reserveFrame]
  split
  · simpa
  · rename_i hfree
    simp only [Option.map_eq_none_iff, firstFree?_eq_none, hfree, iff_false]
    intro hall
    have hempty : a.vacancies = ∅ := by
      ext i
      rw [mem_vacancies]
      refine ⟨fun ⟨hi, hf⟩ => ?_, by simp⟩
      rw [hall i (by omega) (by omega)] at hf
      contradiction
    rw [h.counted, hempty] at hfree
    exact hfree rfl

theorem reserveFrame_eq_some {i : ℕ} (h : a.reserveFrame = some (i, b)) :
    i < a.total ∧ a.isTaken i = false ∧ (∀ k < i, a.isTaken k = true) ∧ b = a.take i := by
  rw [reserveFrame] at h
  split at h
  · contradiction
  · obtain ⟨j, hj, heq⟩ := Option.map_eq_some_iff.mp h
    obtain ⟨rfl, rfl⟩ := Prod.mk.inj heq
    obtain ⟨-, hlt, hfree, hbelow⟩ := firstFree?_eq_some.mp hj
    exact ⟨by omega, hfree, fun k hk => hbelow k (by omega) hk, rfl⟩

theorem reserveRun_eq_ok {size start : ℕ} (h : a.reserveRun size = .ok (start, b)) :
    0 < size ∧ start + (size + 4095) / 4096 ≤ a.total ∧
      (∀ i < (size + 4095) / 4096, a.isTaken (start + i) = false) ∧
      b = a.takeRun start ((size + 4095) / 4096) := by
  simp only [reserveRun] at h
  split at h
  · contradiction
  · split at h
    · contradiction
    · split at h
      · contradiction
      · rename_i s hs
        obtain ⟨rfl, rfl⟩ := Prod.mk.inj (Except.ok.inj h)
        obtain ⟨-, hend, hfree⟩ := firstRun?_free (by omega) (fun k h₁ h₂ => by omega) hs
        exact ⟨by omega, by omega, fun i hi => hfree _ (by omega) (by omega), rfl⟩

/-- A single frame is refused exactly if none is free. -/
theorem allocateFrame_cases (h : Sound a) :
    (allocateFrame a = .ok none a ∧ a.free = 0) ∨
      ∃ (f : Frame) (i : ℕ), allocateFrame a = .ok (some f) (a.take i) ∧ i < a.total ∧
        a.isTaken i = false ∧ f.base.val = a.startOf i := by
  cases hr : a.reserveFrame with
  | none => exact .inl ⟨by simp only [allocateFrame, hr], (reserveFrame_eq_none h).mp hr⟩
  | some r =>
    obtain ⟨i, b⟩ := r
    obtain ⟨hi, hfree, -, rfl⟩ := reserveFrame_eq_some hr
    obtain ⟨p, hp, hok⟩ := addressOf_eq_ok (h.take i) (i := i) (by rw [total_take]; exact hi)
    have hstart : p.val = a.startOf i := by rw [hp, startOf, region_take, startOf]
    refine .inr ⟨.containing p, i, by simp only [allocateFrame, hr, hok], hi, hfree, ?_⟩
    have haligned := h.aligned
    rw [Frame.base_containing, hstart, startOf]
    omega

/-- A run of frames is refused without a trace, or found free. -/
theorem allocate_cases (h : Sound a) (size : ℕ) :
    (∃ e, allocate size a = .ok (.error e) a) ∨
      ∃ (p : PhysAddr) (start : ℕ),
        allocate size a = .ok (.ok p) (a.takeRun start ((size + 4095) / 4096)) ∧
        start + (size + 4095) / 4096 ≤ a.total ∧
        (∀ i < (size + 4095) / 4096, a.isTaken (start + i) = false) ∧ p.val = a.startOf start := by
  cases hr : a.reserveRun size with
  | error e => exact .inl ⟨e, by simp only [allocate, hr]⟩
  | ok r =>
    obtain ⟨start, b⟩ := r
    obtain ⟨hsize, hend, hfree, rfl⟩ := reserveRun_eq_ok hr
    obtain ⟨p, hp, hok⟩ := addressOf_eq_ok (h.takeRun start ((size + 4095) / 4096)) (i := start)
      (by rw [total_takeRun]; omega)
    refine .inr ⟨p, start, by simp only [allocate, hr, hok], hend, hfree, ?_⟩
    rw [hp, startOf, region_takeRun, startOf]

/-! ## Free frames -/

/-- A frame of the pool that is not handed out. -/
def isFree (a : FrameAllocator) (f : Frame) : Prop := ∃ i ∈ a.vacancies, f.base.val = a.startOf i

theorem isFree_iff {f : Frame} :
    a.isFree f ↔ (∃ i < a.total, f.base.val = a.startOf i) ∧ f.base.val ∉ a.lent := by
  constructor
  · rintro ⟨i, hi, hf⟩
    obtain ⟨hlt, hfree⟩ := mem_vacancies.mp hi
    refine ⟨⟨i, hlt, hf⟩, ?_⟩
    rw [hf, startOf_mem_lent, hfree]
    exact Bool.false_ne_true
  · rintro ⟨⟨i, hi, hf⟩, hout⟩
    rw [hf, startOf_mem_lent, Bool.not_eq_true] at hout
    exact ⟨i, mem_vacancies.mpr ⟨hi, hout⟩, hf⟩

/-- What the frame that is handed out was before, and which frames are in use after. -/
structure Handed (a b : FrameAllocator) (f : Frame) : Prop where
  sound : Sound b
  region : b.region = a.region
  wasFree : a.isFree f
  isFree : ∀ g, b.isFree g → a.isFree g ∧ g ≠ f
  isUsed : ∀ g, b.isUsed g = true ↔ a.isUsed g = true ∨ g = f
  count : b.free + 1 = a.free

theorem Sound.handed (h : Sound a) {f : Frame} {i : ℕ} (hi : i < a.total)
    (hfree : a.isTaken i = false) (hf : f.base.val = a.startOf i) : Handed a (a.take i) f := by
  have hmem : i ∈ a.vacancies := mem_vacancies.mpr ⟨hi, hfree⟩
  have hstart : ∀ j, (a.take i).startOf j = a.startOf j := by
    intro j
    rw [startOf, region_take, startOf]
  obtain ⟨hcount, hvacant⟩ := take_eq hi hfree
  refine ⟨h.take i, region_take a i, ⟨i, hmem, hf⟩, ?_, ?_, ?_⟩
  · rintro g ⟨j, hj, hg⟩
    rw [hvacant, Finset.mem_erase] at hj
    rw [hstart] at hg
    refine ⟨⟨j, hj.2, hg⟩, ?_⟩
    rintro rfl
    exact hj.1 (startOf_injective a (hg.symm.trans hf))
  · intro g
    have hsame : g.base.val = a.startOf i ↔ g = f := by
      rw [← hf]
      exact ⟨base_injective, fun h => by rw [h]⟩
    rw [isUsed_iff (h.take i), isUsed_iff h, lent_take hi, Set.mem_insert_iff, hsame, or_comm]
  · have hpos : 0 < a.vacancies.card := Finset.card_pos.mpr ⟨i, hmem⟩
    have := h.counted
    omega

/-- Either no frame is left, or a frame is handed out that was free. -/
theorem allocateFrame_handed (h : Sound a) :
    (allocateFrame a = .ok none a ∧ a.free = 0) ∨
      ∃ f b, allocateFrame a = .ok (some f) b ∧ Handed a b f := by
  rcases allocateFrame_cases h with hnone | ⟨f, i, hsome, hi, hfree, hf⟩
  · exact .inl hnone
  · exact .inr ⟨f, a.take i, hsome, h.handed hi hfree hf⟩

/-! ## New allocators -/

/-- What the checks of a new allocator leave over. -/
theorem flaw?_eq_none_iff {region bitmapRegion : Extent} {size : ℕ} :
    flaw? region bitmapRegion size = none ↔
      region.base.val % 4096 = 0 ∧ region.frameCount ≠ 0 ∧ region.overlaps bitmapRegion = false ∧
        bitmapSize region.frameCount ≤ bitmapRegion.length.toNat ∧
        bitmapSize region.frameCount ≤ size := by
  simp only [flaw?]
  split
  · simp_all [PhysAddr.isAligned]
  · split
    · simp_all
    · split
      · simp_all
      · split
        · simp_all
          omega
        · simp_all [PhysAddr.isAligned]

/-- The bitmap that a new allocator keeps has a bit for every frame and no byte more. -/
theorem length_bitmapPart {region bitmapRegion : Extent} {size : ℕ}
    (h : flaw? region bitmapRegion size = none) :
    (bitmapPart region bitmapRegion).length.toNat = bitmapSize region.frameCount := by
  obtain ⟨-, -, -, hlength, -⟩ := flaw?_eq_none_iff.mp h
  have hlt := bitmapRegion.length.toNat_lt
  rw [bitmapPart, UInt64.toNat_ofNat', Nat.mod_eq_of_lt (by omega)]

theorem ofBuffer_eq_ok {region bitmapRegion : Extent} {buffer : Bitmap}
    (h : ofBuffer region bitmapRegion buffer = .ok a) :
    flaw? region bitmapRegion buffer.bytes.size = none ∧ a.region = region ∧
      a.bitmapRegion = bitmapPart region bitmapRegion ∧ a.free = region.frameCount ∧
      ∀ i, a.isTaken i = false := by
  rw [ofBuffer] at h
  split at h
  · contradiction
  · rename_i hflaw
    obtain rfl := Except.ok.inj h
    refine ⟨hflaw, rfl, rfl, rfl, fun i => ?_⟩
    rw [isTaken, Bitmap.get_clearBytes]
    by_cases hi : i < region.frameCount
    · have hcleared : ¬ 8 * bitmapSize region.frameCount ≤ i := by rw [bitmapSize]; omega
      simp [hcleared]
    · simp [total, hi]

theorem counted_ofBuffer {region bitmapRegion : Extent} {buffer : Bitmap}
    (h : ofBuffer region bitmapRegion buffer = .ok a) : a.free = a.vacancies.card := by
  obtain ⟨-, hregion, -, hfree, htaken⟩ := ofBuffer_eq_ok h
  have hall : a.vacancies = Finset.range a.total := by
    ext i
    simp [mem_vacancies, htaken]
  rw [hfree, hall, Finset.card_range, total, hregion]

theorem sound_ofBuffer {region bitmapRegion : Extent} {buffer : Bitmap}
    (h : ofBuffer region bitmapRegion buffer = .ok a)
    (hend : a.startOf a.total ≤ 0x10000000000000) : Sound a := by
  obtain ⟨hflaw, hregion, -⟩ := ofBuffer_eq_ok h
  exact ⟨by rw [hregion]; exact (flaw?_eq_none_iff.mp hflaw).1, hend, counted_ofBuffer h⟩

theorem lent_ofBuffer {region bitmapRegion : Extent} {buffer : Bitmap}
    (h : ofBuffer region bitmapRegion buffer = .ok a) : a.lent = ∅ := by
  have htaken := (ofBuffer_eq_ok h).2.2.2.2
  simp [lent, htaken]

end FrameAllocator

end KernelCore
