import KernelCore.Proofs.Frames.Books
import Mathlib.Order.Interval.Finset.Nat
import Mathlib.Tactic

/-!
# First fit

A run of frames is allocated where the first free run of that length begins. The search goes over
the pool once and only knows how many free frames lie just below the frame it looks at, so what is
shown of it speaks of the runs that begin there or later; from the start of the pool these are all
runs. The check of the free count that goes before the search refuses nothing that would be found,
as a free run is as many frames that count as free. A run of one frame is the lowest free frame, so
the search for single frames can stand in for it.
-/

namespace KernelCore

/-- The search goes no further than the first free run that begins at its `run` frames or later. -/
theorem firstRun?_of_free {taken : ℕ → Bool} {count n i run s : ℕ} (hrun : run ≤ i)
    (hshort : run < count) (hstart : i - run ≤ s) (hend : s + count ≤ i + n)
    (hfree : ∀ k, s ≤ k → k < s + count → taken k = false) :
    ∃ start, firstRun? taken count n i run = some start ∧ start ≤ s := by
  induction n generalizing i run with
  | zero => omega
  | succ n ih =>
    rw [firstRun?]
    by_cases hi : taken i = true
    · -- a run that begins earlier is too long to end before the taken frame
      have hlater : i + 1 ≤ s := by
        apply Decidable.byContradiction
        intro hle
        have hmeets := hfree i (by omega) (by omega)
        rw [hi] at hmeets
        contradiction
      rw [if_pos hi]
      exact ih (by omega) (by omega) (by omega) (by omega)
    · rw [if_neg hi]
      by_cases hlast : run + 1 = count
      · rw [if_pos hlast]
        exact ⟨i - run, rfl, hstart⟩
      · rw [if_neg hlast]
        exact ih (by omega) (by omega) (by omega) (by omega)

/-- A run of one is what a search for the lowest free index finds. -/
theorem firstRun?_one (taken : ℕ → Bool) (n i : ℕ) :
    firstRun? taken 1 n i 0 = firstFree? taken n i := by
  induction n generalizing i with
  | zero => rfl
  | succ n ih => simp [firstRun?, firstFree?, ih]

namespace FrameAllocator

variable {a b : FrameAllocator} {size count start i : ℕ}

/-- The `count` frames from `start` on belong to the pool, and none of them is handed out. -/
def FreeRun (a : FrameAllocator) (count start : ℕ) : Prop :=
  start + count ≤ a.total ∧ ∀ i < count, a.isTaken (start + i) = false

theorem FreeRun.isTaken (h : a.FreeRun count start) (h₁ : start ≤ i) (h₂ : i < start + count) :
    a.isTaken i = false := by
  obtain ⟨k, rfl⟩ := Nat.exists_eq_add_of_le h₁
  exact h.2 k (by omega)

/-- A free run lasts no longer than there are free frames. -/
theorem FreeRun.le_card (h : a.FreeRun count start) : count ≤ a.vacancies.card := by
  have hinside : Finset.Ico start (start + count) ⊆ a.vacancies := by
    intro i hi
    obtain ⟨h₁, h₂⟩ := Finset.mem_Ico.mp hi
    have hend := h.1
    exact mem_vacancies.mpr ⟨by omega, h.isTaken h₁ h₂⟩
  have hcard := Finset.card_le_card hinside
  rw [Nat.card_Ico] at hcard
  omega

theorem FreeRun.tail (h : a.FreeRun (count + 1) start) :
    (a.take start).FreeRun count (start + 1) := by
  obtain ⟨hend, hfree⟩ := h
  refine ⟨by rw [total_take]; omega, fun i hi => ?_⟩
  have hthis := hfree (i + 1) (by omega)
  rw [isTaken_take, show start + 1 + i = start + (i + 1) by omega, hthis]
  simp

/-- Taking a free run lowers the free count by its length. -/
theorem FreeRun.free_takeRun (h : a.FreeRun count start) (hcounted : a.free = a.vacancies.card) :
    (a.takeRun start count).free + count = a.free := by
  induction count generalizing a start with
  | zero => rfl
  | succ count ih =>
    have hsome := h.le_card
    have hstart : a.isTaken start = false := h.isTaken le_rfl (by omega)
    have hpool := h.1
    have hone := (take_eq (by omega) hstart).1
    have hrest := ih h.tail (counted_take hcounted start)
    rw [takeRun]
    omega

theorem FreeRun.isTaken_takeRun_iff (h : a.FreeRun count start) (i : ℕ) :
    (a.takeRun start count).isTaken i = true ↔
      a.isTaken i = true ∨ start ≤ i ∧ i < start + count := by
  have hend := h.1
  rw [isTaken_takeRun, Bool.or_eq_true, decide_eq_true_eq]
  refine or_congr Iff.rfl ⟨fun hi => ⟨hi.1, hi.2.1⟩, fun hi => ⟨hi.1, hi.2, by omega⟩⟩

/-- Where there is a free run, one is found that begins no later. -/
theorem FreeRun.exists_reserveRun (h : a.FreeRun ((size + 4095) / 4096) start)
    (hcounted : a.free = a.vacancies.card) (hsize : 0 < size) :
    ∃ s ≤ start, a.reserveRun size = .ok (s, a.takeRun s ((size + 4095) / 4096)) := by
  have hroom := h.le_card
  have hend := h.1
  obtain ⟨s, hs, hle⟩ : ∃ s, firstRun? a.isTaken ((size + 4095) / 4096) a.total 0 0 = some s ∧
      s ≤ start :=
    firstRun?_of_free le_rfl (by omega) (Nat.zero_le start) (by omega) fun k => h.isTaken
  refine ⟨s, hle, ?_⟩
  simp only [reserveRun]
  rw [if_neg (by omega), if_neg (by omega), hs]

/-- What is reserved is the first free run, if there is one. -/
theorem reserveRun_eq_ok_iff (hcounted : a.free = a.vacancies.card) :
    a.reserveRun size = .ok (start, b) ↔ 0 < size ∧
      IsLeast {s | a.FreeRun ((size + 4095) / 4096) s} start ∧
      b = a.takeRun start ((size + 4095) / 4096) := by
  constructor
  · intro h
    obtain ⟨hsize, hend, hfree, hb⟩ := reserveRun_eq_ok h
    refine ⟨hsize, ⟨⟨hend, hfree⟩, fun s hs => ?_⟩, hb⟩
    obtain ⟨first, hle, hfirst⟩ := FreeRun.exists_reserveRun hs hcounted hsize
    obtain ⟨rfl, -⟩ := Prod.mk.inj (Except.ok.inj (hfirst.symm.trans h))
    exact hle
  · rintro ⟨hsize, ⟨hrun, hleast⟩, rfl⟩
    obtain ⟨first, hle, hfirst⟩ := FreeRun.exists_reserveRun hrun hcounted hsize
    obtain ⟨-, hend, hfree, -⟩ := reserveRun_eq_ok hfirst
    have hsame : first = start := le_antisymm hle (hleast ⟨hend, hfree⟩)
    rw [hfirst, hsame]

theorem eq_outOfFrames_of_reserveRun {e : FrameError} (hsize : size ≠ 0)
    (h : a.reserveRun size = .error e) : e = .outOfFrames := by
  simp only [reserveRun, if_neg hsize] at h
  split at h
  · exact (Except.error.inj h).symm
  · split at h
    · exact (Except.error.inj h).symm
    · contradiction

/-- A run is refused exactly if it is to be of no bytes, or if there is none. -/
theorem reserveRun_eq_error_iff (hcounted : a.free = a.vacancies.card) {e : FrameError} :
    a.reserveRun size = .error e ↔ size = 0 ∧ e = .zeroSize ∨
      0 < size ∧ e = .outOfFrames ∧ ∀ start, ¬ a.FreeRun ((size + 4095) / 4096) start := by
  constructor
  · intro h
    by_cases hzero : size = 0
    · simp only [reserveRun, if_pos hzero] at h
      exact .inl ⟨hzero, (Except.error.inj h).symm⟩
    · refine .inr ⟨by omega, eq_outOfFrames_of_reserveRun hzero h, fun start hrun => ?_⟩
      obtain ⟨s, -, hs⟩ := hrun.exists_reserveRun hcounted (by omega)
      rw [hs] at h
      contradiction
  · rintro (⟨rfl, rfl⟩ | ⟨hsize, rfl, hnone⟩)
    · rfl
    · cases h : a.reserveRun size with
      | ok r => exact absurd ((reserveRun_eq_ok_iff hcounted).mp h).2.1.1 (hnone r.1)
      | error e => rw [eq_outOfFrames_of_reserveRun (Nat.ne_of_gt hsize) h]

/-- The address that is returned is that of the run that is reserved. -/
theorem allocate_eq_ok {p : PhysAddr} (h : allocate size a = .ok (.ok p) b) :
    ∃ start, a.reserveRun size = .ok (start, b) ∧ p.val = a.startOf start := by
  cases hr : a.reserveRun size with
  | error e => simp [allocate, hr] at h
  | ok r =>
    obtain ⟨start, c⟩ := r
    obtain ⟨-, -, -, rfl⟩ := reserveRun_eq_ok hr
    simp only [allocate, hr] at h
    split at h
    · rename_i q hq
      obtain ⟨hp, rfl⟩ := EStateM.Result.ok.inj h
      obtain rfl := Except.ok.inj hp
      have hstart := eq_startOf_of_addressOf hq
      rw [startOf, region_takeRun] at hstart
      exact ⟨start, rfl, hstart⟩
    · contradiction

theorem allocate_eq_ok_iff (h : Sound a) {p : PhysAddr} :
    allocate size a = .ok (.ok p) b ↔ 0 < size ∧
      ∃ start, IsLeast {s | a.FreeRun ((size + 4095) / 4096) s} start ∧ p.val = a.startOf start ∧
        b = a.takeRun start ((size + 4095) / 4096) := by
  constructor
  · intro hok
    obtain ⟨start, hr, hp⟩ := allocate_eq_ok hok
    obtain ⟨hsize, hleast, hb⟩ := (reserveRun_eq_ok_iff h.counted).mp hr
    exact ⟨hsize, start, hleast, hp, hb⟩
  · rintro ⟨hsize, start, hleast, hp, rfl⟩
    have hend := hleast.1.1
    obtain ⟨q, hq, haddr⟩ := addressOf_eq_ok (h.takeRun start ((size + 4095) / 4096)) (i := start)
      (by rw [total_takeRun]; omega)
    rw [startOf, region_takeRun, ← startOf] at hq
    obtain rfl : q = p := PhysAddr.ext (hq.trans hp.symm)
    have hr := (reserveRun_eq_ok_iff h.counted).mpr ⟨hsize, hleast, rfl⟩
    simp only [allocate, hr, haddr]

/-- An allocation that fails changes nothing. -/
theorem allocate_eq_error_iff {e : FrameError} :
    allocate size a = .ok (.error e) b ↔ a.reserveRun size = .error e ∧ b = a := by
  cases hr : a.reserveRun size with
  | error f => simp [allocate, hr, eq_comm]
  | ok r =>
    simp only [allocate, hr, reduceCtorEq, false_and, iff_false]
    split <;> simp

/-- Contiguous allocation is first fit. In every state that requests lead to, nothing is allocated
for no bytes. For any other size the frames that it takes are allocated exactly if there are as many
free ones in a row: those from the first such run on, which are then handed out beside what was so
before, and the free count is lower by their number. There is no room exactly if there is no such
run, whatever the free count; and whenever something is refused, the allocator is as it was. -/
theorem allocation_is_first_fit {region bitmapRegion : Extent} {buffer : Bitmap}
    (hnew : ofBuffer region bitmapRegion buffer = .ok a)
    (hend : region.base.val + region.length.toNat ≤ 0x10000000000000)
    (requests : List Request) :
    ∃ b out, serveAll requests a ∅ = .ok (b, out) ∧
      allocate 0 b = .ok (.error .zeroSize) b ∧
      (∀ size e c, allocate size b = .ok (.error e) c → c = b) ∧
      ∀ size count, 0 < size → count = (size + 4095) / 4096 →
        ((∃ p c, allocate size b = .ok (.ok p) c) ↔ ∃ start, b.FreeRun count start) ∧
        (allocate size b = .ok (.error .outOfFrames) b ↔ ¬ ∃ start, b.FreeRun count start) ∧
        ∀ p c, allocate size b = .ok (.ok p) c →
          ∃ start, IsLeast {s | b.FreeRun count s} start ∧ p.val = b.startOf start ∧
            (∀ i, c.isTaken i = true ↔ b.isTaken i = true ∨ start ≤ i ∧ i < start + count) ∧
            c.free + count = b.free := by
  have hregion := (ofBuffer_eq_ok hnew).2.1
  have hsound : Sound a := sound_ofBuffer hnew (a.startOf_total_le.trans (by rwa [hregion]))
  obtain ⟨b, hrun, hb, -, -⟩ := serveAll_eq_ok hsound requests
  rw [lent_ofBuffer hnew] at hrun
  refine ⟨b, b.lent, hrun, rfl, fun size e c h => (allocate_eq_error_iff.mp h).2, ?_⟩
  rintro size count hsize rfl
  have hfound : ∀ p c, allocate size b = .ok (.ok p) c →
      ∃ start, IsLeast {s | b.FreeRun ((size + 4095) / 4096) s} start ∧ p.val = b.startOf start ∧
        c = b.takeRun start ((size + 4095) / 4096) := fun p c h => ((allocate_eq_ok_iff hb).mp h).2
  have hrefused : allocate size b = .ok (.error .outOfFrames) b ↔
      ¬ ∃ start, b.FreeRun ((size + 4095) / 4096) start := by
    rw [allocate_eq_error_iff, reserveRun_eq_error_iff hb.counted, not_exists]
    simp [hsize]
  refine ⟨⟨?_, ?_⟩, hrefused, ?_⟩
  · rintro ⟨p, c, hok⟩
    obtain ⟨start, hleast, -, -⟩ := hfound p c hok
    exact ⟨start, hleast.1⟩
  · rintro ⟨start, hfree⟩
    obtain ⟨s, -, hs⟩ := hfree.exists_reserveRun hb.counted hsize
    rcases allocate_cases hb size with ⟨e, herror⟩ | ⟨p, s', hok, -⟩
    · have hnone := (allocate_eq_error_iff.mp herror).1
      rw [hs] at hnone
      contradiction
    · exact ⟨p, _, hok⟩
  · intro p c hok
    obtain ⟨start, hleast, hp, rfl⟩ := hfound p c hok
    exact ⟨start, hleast, hp, hleast.1.isTaken_takeRun_iff, hleast.1.free_takeRun hb.counted⟩

/-- Requests for eight frames, of which one comes back and then two in a row after it. -/
def fragmenting : List Request :=
  [.run 0x8000, .free ⟨0x101000, by decide⟩, .free ⟨0x106000, by decide⟩,
    .release ⟨0x107, by decide⟩]

/-- Of a pool of eight frames three are free, the last two of them in a row. Three in a row are
refused all the same, and two are found at the end. -/
theorem allocation_is_first_fit_fragmented :
    ∃ a, ofBuffer ⟨⟨0x100000, by decide⟩, 0x8000⟩ ⟨⟨0x1000, by decide⟩, 1⟩ ⟨#[0xaa]⟩ = .ok a ∧
      ∃ b out, serveAll fragmenting a ∅ = .ok (b, out) ∧ b.free = 3 ∧
        allocate 0x2001 b = .ok (.error .outOfFrames) b ∧
        ∃ p c, allocate 0x1001 b = .ok (.ok p) c ∧ p.val = 0x106000 ∧ c.free + 2 = b.free := by
  obtain ⟨a, hnew, hview⟩ :
      ∃ a, ofBuffer ⟨⟨0x100000, by decide⟩, 0x8000⟩ ⟨⟨0x1000, by decide⟩, 1⟩ ⟨#[0xaa]⟩ = .ok a ∧
        (serveAll fragmenting a ∅).map (fun r => (r.1.free, r.1.total, r.1.startOf 6,
          (List.range 8).map r.1.isTaken)) =
        .ok (3, 8, 0x106000, [true, false, true, true, true, true, false, false]) :=
    ⟨_, rfl, rfl⟩
  obtain ⟨b, out, hrun, -, -, hnext⟩ := allocation_is_first_fit hnew (by decide) fragmenting
  rw [hrun] at hview
  simp only [Except.map, Except.ok.injEq, Prod.mk.injEq, List.range_succ, List.range_zero,
    List.map_cons, List.map_nil, List.nil_append, List.cons_append,
    List.cons.injEq, and_true] at hview
  obtain ⟨hfree, htotal, hlast, h0, -, h2, h3, h4, h5, h6, h7⟩ := hview
  have hthree : ¬ ∃ start, b.FreeRun 3 start := by
    rintro ⟨start, hend, hall⟩
    have hnow := hall 0 (by decide)
    have hthen := hall 1 (by decide)
    have hbefore : start ≤ 5 := by omega
    interval_cases start <;> simp_all
  have htwo : b.FreeRun 2 6 := by
    refine ⟨htotal.ge, fun i hi => ?_⟩
    interval_cases i <;> assumption
  have hfirst : ∀ s, b.FreeRun 2 s → 6 ≤ s := by
    intro s hs
    have hnow := hs.2 0 (by decide)
    have hthen := hs.2 1 (by decide)
    apply Decidable.byContradiction
    intro hlt
    have hbefore : s < 6 := by omega
    interval_cases s <;> simp_all
  obtain ⟨hfound, -, hwhere⟩ := hnext 0x1001 2 (by decide) rfl
  obtain ⟨p, c, hok⟩ := hfound.mpr ⟨6, htwo⟩
  obtain ⟨start, ⟨hrun', hleast⟩, hp, -, hcount⟩ := hwhere p c hok
  obtain rfl : start = 6 := le_antisymm (hleast htwo) (hfirst start hrun')
  exact ⟨a, hnew, b, out, hrun, hfree, (hnext 0x2001 3 (by decide) rfl).2.1.mpr hthree, p, c, hok,
    hp.trans hlast, hcount⟩

/-! ## Single frames -/

/-- Up to the size of a frame, a run is reserved as the lowest free frame is. -/
theorem reserveRun_of_le (hsize : 1 ≤ size) (hframe : size ≤ 4096) :
    a.reserveRun size = (a.reserveFrame).elim (.error .outOfFrames) .ok := by
  have hcount : (size + 4095) / 4096 = 1 := by omega
  simp only [reserveRun, reserveFrame, hcount, firstRun?_one]
  rw [if_neg (by omega)]
  by_cases hfree : a.free = 0
  · simp [hfree]
  · rw [if_neg (by omega), if_neg hfree]
    cases firstFree? a.isTaken a.total 0 <;> rfl

/-- The end of a request for a short run, when that of one for a single frame is known. -/
def asRun : EStateM.Result Panic FrameAllocator (Option Frame) →
    EStateM.Result Panic FrameAllocator (Except FrameError PhysAddr)
  | .ok (some f) b => .ok (.ok f.base) b
  | .ok none b => .ok (.error .outOfFrames) b
  | .error stop b => .error stop b

theorem asRun_injective : Function.Injective asRun := by
  have hbase : ∀ {f g : Frame}, f.base = g.base → f = g := fun h =>
    base_injective (congrArg PhysAddr.val h)
  intro r s h
  rcases r with ⟨_ | f, b⟩ | ⟨stop, b⟩ <;> rcases s with ⟨_ | g, c⟩ | ⟨stop', c⟩ <;>
    simp_all [asRun]
  exact hbase h.1

/-- Both ways of allocating look for the same frame, mark it and work out its address. -/
theorem allocate_of_le (haligned : a.region.base.val % 4096 = 0) (hsize : 1 ≤ size)
    (hframe : size ≤ 4096) : allocate size a = asRun (allocateFrame a) := by
  simp only [allocate, allocateFrame, reserveRun_of_le hsize hframe]
  cases hr : a.reserveFrame with
  | none => rfl
  | some r =>
    obtain ⟨i, b⟩ := r
    obtain ⟨-, -, -, rfl⟩ := reserveFrame_eq_some hr
    simp only [Option.elim_some]
    cases hp : (a.take i).addressOf i with
    | error stop => rfl
    | ok p =>
      have hstart := eq_startOf_of_addressOf hp
      rw [startOf, region_take] at hstart
      have hbase : (Frame.containing p).base = p := by
        apply PhysAddr.ext
        rw [Frame.base_containing]
        omega
      simp only [asRun, hbase]

/-- The two ways to allocate agree. In every state that an allocator reaches, a single frame is
handed out exactly if a run of at most its size is, and it is the frame where that run begins; it is
refused exactly if there is no room for the run; and the allocator is the same after either. -/
theorem allocation_paths_agree {pool place : Extent} (h : Reachable pool place a)
    (hsize : 1 ≤ size) (hframe : size ≤ 4096) :
    (∀ f b, allocateFrame a = .ok (some f) b ↔ allocate size a = .ok (.ok f.base) b) ∧
      (∀ b, allocateFrame a = .ok none b ↔ allocate size a = .ok (.error .outOfFrames) b) ∧
      ∀ stop b, allocateFrame a = .error stop b ↔ allocate size a = .error stop b := by
  have hends : ∀ r, allocateFrame a = r ↔ allocate size a = asRun r := by
    intro r
    rw [allocate_of_le h.aligned hsize hframe, asRun_injective.eq_iff]
  exact ⟨fun f b => hends (.ok (some f) b), fun b => hends (.ok none b),
    fun stop b => hends (.error stop b)⟩

/-- Of three frames only the one in the middle is free: both ways hand it out, and then refuse. -/
theorem allocation_paths_agree_on_last_frame :
    ∃ a, ofBuffer ⟨⟨0x100000, by decide⟩, 0x3000⟩ ⟨⟨0x1000, by decide⟩, 1⟩ ⟨#[0xff]⟩ = .ok a ∧
      allocate 1 (leftAll [.run 0x3000, .free ⟨0x101000, by decide⟩] a) =
        .ok (.ok ⟨0x101000, by decide⟩)
          (leftAll [.run 0x3000, .free ⟨0x101000, by decide⟩, .frame] a) ∧
      allocate 0x1000 (leftAll [.run 0x3000] a) = .ok (.error .outOfFrames)
        (leftAll [.run 0x3000] a) := by
  obtain ⟨a, hnew, hmiddle, hnone⟩ : ∃ a,
      ofBuffer ⟨⟨0x100000, by decide⟩, 0x3000⟩ ⟨⟨0x1000, by decide⟩, 1⟩ ⟨#[0xff]⟩ = .ok a ∧
      allocateFrame (leftAll [.run 0x3000, .free ⟨0x101000, by decide⟩] a) =
        .ok (some ⟨0x101, by decide⟩)
          (leftAll [.run 0x3000, .free ⟨0x101000, by decide⟩, .frame] a) ∧
      allocateFrame (leftAll [.run 0x3000] a) = .ok none (leftAll [.run 0x3000] a) :=
    ⟨_, rfl, rfl, rfl⟩
  refine ⟨a, hnew, ?_, ?_⟩
  · exact ((allocation_paths_agree ⟨_, a, _, hnew, rfl⟩ (by decide) (by decide)).1 _ _).mp hmiddle
  · exact ((allocation_paths_agree ⟨_, a, _, hnew, rfl⟩ (by decide) (by decide)).2.1 _).mp hnone

end FrameAllocator

end KernelCore
