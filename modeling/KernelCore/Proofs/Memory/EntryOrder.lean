import KernelCore.Proofs.Memory.PoolSelection

/-!
# Order of the memory map

The bootloader may list memory in any order. The totals are sums, which stop the kernel only if all
lengths together have more than 64 bits. How a map is answered is said by `Selected` with any of
the longest entries in the place of the last one, so a permutation of the map has the same answers
to it; and any two of them are the same error, or a pool and a bitmap of the same lengths. Entries
that are not usable only move the numbers of the others, which are compared for equality and
nothing else.
-/

namespace KernelCore

variable {entries entries' : List MapEntry} {e e' f : MapEntry} {i i' j : ℕ}

/-! ## Totals -/

namespace MemoryTotals

/-- Number of bytes that all entries together describe. -/
def lengthSum (entries : List MapEntry) : ℕ := (entries.map (·.length.toNat)).sum

theorem lengthSum_perm (h : entries.Perm entries') : lengthSum entries = lengthSum entries' :=
  (h.map _).sum_nat

theorem lengthSum_filter_le (entries : List MapEntry) (p : MapEntry → Bool) :
    lengthSum (entries.filter p) ≤ lengthSum entries :=
  (List.filter_sublist.map _).sum_le_sum fun _ _ => Nat.zero_le _

/-- A sum that was within 64 bits up to now goes on as long as the whole sum is. -/
theorem foldlM_addWithin (entries : List MapEntry) {sum : ℕ} (hsum : sum < UInt64.size) :
    entries.foldlM (fun sum e => addWithin UInt64.size sum e.length.toNat) sum =
      addWithin UInt64.size sum (lengthSum entries) := by
  induction entries generalizing sum with
  | nil => exact (if_pos hsum).symm
  | cons e rest ih =>
    have hrest : lengthSum (e :: rest) = e.length.toNat + lengthSum rest := rfl
    rw [List.foldlM_cons, hrest]
    by_cases hnext : sum + e.length.toNat < UInt64.size
    · rw [addWithin, if_pos hnext]
      change rest.foldlM _ _ = _
      rw [ih hnext, addWithin, addWithin, Nat.add_assoc]
    · rw [addWithin, if_neg hnext, addWithin, if_neg (by omega)]
      rfl

theorem sumLengths_eq (entries : List MapEntry) :
    sumLengths entries = addWithin UInt64.size 0 (lengthSum entries) :=
  foldlM_addWithin entries (by decide)

/-- The second sum is of some of the entries only, so it goes on where the first one did. -/
theorem ofEntries_eq (entries : List MapEntry) :
    ofEntries entries = (addWithin UInt64.size 0 (lengthSum entries)).map fun total =>
      ⟨total, lengthSum (entries.filter (·.isUsable))⟩ := by
  have hle := lengthSum_filter_le entries (·.isUsable)
  rw [ofEntries, sumLengths_eq, sumLengths_eq]
  by_cases htotal : 0 + lengthSum entries < UInt64.size
  · rw [addWithin, if_pos htotal, addWithin, if_pos (by omega), Nat.zero_add, Nat.zero_add]
    rfl
  · rw [addWithin, if_neg htotal]
    rfl

theorem ofEntries_eq_error_iff :
    (∃ stop, ofEntries entries = .error stop) ↔ 2 ^ 64 ≤ lengthSum entries := by
  rw [ofEntries_eq, addWithin, UInt64.size]
  split
  · exact iff_of_false (by simp [Except.map]) (by omega)
  · exact iff_of_true ⟨.addOverflow, rfl⟩ (by omega)

theorem ofEntries_perm (h : entries.Perm entries') : ofEntries entries = ofEntries entries' := by
  rw [ofEntries_eq, ofEntries_eq, lengthSum_perm h, lengthSum_perm (h.filter _)]

theorem total_eq {totals : MemoryTotals} (h : ofEntries entries = .ok totals) :
    totals.total = totals.usable + totals.reserved := by
  rw [ofEntries_eq, addWithin] at h
  split at h
  · obtain rfl := Except.ok.inj h
    have hle := lengthSum_filter_le entries (·.isUsable)
    simp only [reserved]
    omega
  · contradiction

end MemoryTotals

/-! ## Permutations -/

theorem UsableAt.exists_perm (h : UsableAt entries i e) (hperm : entries.Perm entries') :
    ∃ i', UsableAt entries' i' e := by
  obtain ⟨i', hi'⟩ := List.mem_iff_getElem?.mp (hperm.mem_iff.mp (List.mem_of_getElem? h.1))
  exact ⟨i', hi', h.2⟩

/-- Without an entry that both have, two permutations of a map are permutations still. -/
theorem perm_eraseIdx (hperm : entries.Perm entries') (hi : entries[i]? = some e)
    (hi' : entries'[i']? = some e) : (entries.eraseIdx i).Perm (entries'.eraseIdx i') := by
  obtain ⟨hlt, rfl⟩ := List.getElem?_eq_some_iff.mp hi
  obtain ⟨hlt', hsame⟩ := List.getElem?_eq_some_iff.mp hi'
  have hleft := List.getElem_cons_eraseIdx_perm hlt
  have hright := List.getElem_cons_eraseIdx_perm hlt'
  rw [hsame] at hright
  exact (hleft.trans (hperm.trans hright.symm)).cons_inv

/-- What there is beside an entry there is beside it in every order. -/
theorem HasRoom.exists_perm (h : HasRoom entries i e j f) (hperm : entries.Perm entries')
    (hi : UsableAt entries i e) (hi' : UsableAt entries' i' e) :
    ∃ j', HasRoom entries' i' e j' f := by
  have hmem : f ∈ entries.eraseIdx i := List.mem_eraseIdx_iff_getElem?.mpr ⟨j, h.ne, h.usable.1⟩
  obtain ⟨j', hne, hj'⟩ :=
    List.mem_eraseIdx_iff_getElem?.mp ((perm_eraseIdx hperm hi.1 hi'.1).mem_iff.mp hmem)
  exact ⟨j', ⟨hj', h.usable.2⟩, hne, h.room⟩

theorem Longest.exists_perm (h : Longest entries i e) (hperm : entries.Perm entries') :
    ∃ i', Longest entries' i' e := by
  obtain ⟨i', hi'⟩ := h.usable.exists_perm hperm
  refine ⟨i', hi', fun j f hf => ?_⟩
  obtain ⟨k, hk⟩ := hf.exists_perm hperm.symm
  exact h.length_le k f hk

theorem UsableInMemory.perm (h : UsableInMemory entries) (hperm : entries.Perm entries') :
    UsableInMemory entries' :=
  fun e he => h e (hperm.mem_iff.mpr he)

/-- An answer to a map is one to all its permutations. -/
theorem Selected.perm {answer : Except LayoutError FramePool} (h : Selected entries answer)
    (hperm : entries.Perm entries') : Selected entries' answer := by
  have halone : ∀ {i i' e}, UsableAt entries i e → UsableAt entries' i' e →
      (∀ j f, ¬ HasRoom entries i e j f) → ∀ j f, ¬ HasRoom entries' i' e j f := by
    intro i i' e hi hi' hnone j f hroom
    obtain ⟨j', hj'⟩ := hroom.exists_perm hperm.symm hi' hi
    exact hnone j' f hj'
  cases h with
  | nothing unusable =>
    refine .nothing fun i e hi => ?_
    obtain ⟨i', hi'⟩ := hi.exists_perm hperm.symm
    exact unusable i' e hi'
  | beside longest room length_le frames bitmap =>
    obtain ⟨i', hlongest⟩ := longest.exists_perm hperm
    obtain ⟨j', hroom⟩ := room.exists_perm hperm longest.usable hlongest.usable
    refine .beside hlongest hroom (fun k g hg => ?_) frames bitmap
    obtain ⟨k', hk'⟩ := hg.exists_perm hperm.symm hlongest.usable longest.usable
    exact length_le k' g hk'
  | tooSmall longest alone small =>
    obtain ⟨i', hlongest⟩ := longest.exists_perm hperm
    exact .tooSmall hlongest (halone longest.usable hlongest.usable alone) small
  | split longest alone pos bitmapFrames whole split =>
    obtain ⟨i', hlongest⟩ := longest.exists_perm hperm
    exact .split hlongest (halone longest.usable hlongest.usable alone) pos bitmapFrames whole split

/-! ## Answers to one map -/

theorem Longest.length_eq (h : Longest entries i e) (h' : Longest entries i' e') :
    e.length = e'.length :=
  UInt64.toNat_inj.mp (Nat.le_antisymm (h'.length_le i e h.usable) (h.length_le i' e' h'.usable))

theorem Longest.frameCount_eq (h : Longest entries i e) (h' : Longest entries i' e') :
    e.frameCount = e'.frameCount := by
  rw [MapEntry.frameCount, MapEntry.frameCount, h.length_eq h']

/-- If there is room beside one of the longest entries, there is as much beside another one. -/
theorem HasRoom.exists_le (h : HasRoom entries i e j f) (he : Longest entries i e)
    (he' : Longest entries i' e') :
    ∃ k g, HasRoom entries i' e' k g ∧ f.length.toNat ≤ g.length.toNat := by
  have hroom := h.room
  rw [he.frameCount_eq he'] at hroom
  by_cases hj : j = i'
  · -- the other one is what there was room in, and now there is room in the first one
    subst hj
    obtain rfl := Option.some.inj (h.usable.1.symm.trans he'.usable.1)
    have hle := he.length_le j f h.usable
    exact ⟨i, e, ⟨he.usable, h.ne.symm, hroom.trans hle⟩, hle⟩
  · exact ⟨j, f, ⟨h.usable, hj, hroom⟩, le_rfl⟩

theorem Longest.alone (h : Longest entries i e) (h' : Longest entries i' e')
    (halone : ∀ j f, ¬ HasRoom entries i e j f) (j : ℕ) (f : MapEntry) :
    ¬ HasRoom entries i' e' j f := by
  intro hroom
  obtain ⟨k, g, hk, -⟩ := hroom.exists_le h' h
  exact halone k g hk

/-- The same error, or a pool and a bitmap of the same lengths. -/
inductive FramePool.Alike : Except LayoutError FramePool → Except LayoutError FramePool → Prop
  | error (e : LayoutError) : Alike (.error e) (.error e)
  | pool {p q : FramePool} (frames : p.frames.length = q.frames.length)
      (bitmap : p.bitmap.length = q.bitmap.length) : Alike (.ok p) (.ok q)

/-- Lengths of the usable entries. -/
def usableLengths (entries : List MapEntry) : List UInt64 :=
  (entries.filter (·.isUsable)).map (·.length)

/-- Where no two usable entries have the same length, an entry is known by it. -/
theorem UsableAt.eq_of_length_eq (h : (usableLengths entries).Nodup) (he : UsableAt entries i e)
    (hf : UsableAt entries j f) (hlength : e.length = f.length) : e = f :=
  List.inj_on_of_nodup_map h (List.mem_filter.mpr ⟨List.mem_of_getElem? he.1, he.2⟩)
    (List.mem_filter.mpr ⟨List.mem_of_getElem? hf.1, hf.2⟩) hlength

theorem Split.length_eq {n k : ℕ} {p q : FramePool} (hp : Split e n k p) (hq : Split e' n k q) :
    p.frames.length = q.frames.length ∧ p.bitmap.length = q.bitmap.length :=
  ⟨UInt64.toNat_inj.mp (hp.length.trans hq.length.symm),
    UInt64.toNat_inj.mp (hp.bitmapLength.trans hq.bitmapLength.symm)⟩

theorem Split.eq {n k : ℕ} {p q : FramePool} (hp : Split e n k p) (hq : Split e n k q) : p = q := by
  obtain ⟨hlength, hbitmapLength⟩ := Split.length_eq hp hq
  have hbase := PhysAddr.ext (hp.base.trans hq.base.symm)
  have hbitmapBase := PhysAddr.ext (hp.bitmapBase.trans hq.bitmapBase.symm)
  obtain ⟨⟨base, length⟩, ⟨bitmapBase, bitmapLength⟩⟩ := p
  obtain ⟨⟨base', length'⟩, ⟨bitmapBase', bitmapLength'⟩⟩ := q
  simp only at hlength hbitmapLength hbase hbitmapBase
  rw [hlength, hbitmapLength, hbase, hbitmapBase]

/-- Two answers to one map differ in the places of pool and bitmap at most, and that only among
entries of the same length. -/
theorem Selected.alike {a b : Except LayoutError FramePool} (ha : Selected entries a)
    (hb : Selected entries b) : FramePool.Alike a b ∧ ((usableLengths entries).Nodup → a = b) := by
  cases ha with
  | nothing unusable =>
    cases hb with
    | nothing => exact ⟨.error _, fun _ => rfl⟩
    | beside longest | tooSmall longest | split longest =>
      exact absurd longest.usable (unusable _ _)
  | @beside i j e f p longest room length_le frames bitmap =>
    cases hb with
    | nothing unusable => exact absurd longest.usable (unusable _ _)
    | @beside i' j' e' f' q longest' room' length_le' frames' bitmap' =>
      obtain ⟨k, g, hk, hle⟩ := room.exists_le longest longest'
      obtain ⟨k', g', hk', hle'⟩ := room'.exists_le longest' longest
      have hlength : f.length = f'.length := UInt64.toNat_inj.mp (Nat.le_antisymm
        (hle.trans (length_le' k g hk)) (hle'.trans (length_le k' g' hk')))
      refine ⟨.pool ?_ ?_, fun hnodup => ?_⟩
      · rw [(MapEntry.extent_eq_ok frames).2, (MapEntry.extent_eq_ok frames').2,
          longest.length_eq longest']
      · rw [(MapEntry.extent_eq_ok bitmap).2, (MapEntry.extent_eq_ok bitmap').2, hlength]
      · obtain rfl := UsableAt.eq_of_length_eq hnodup longest.usable longest'.usable
          (longest.length_eq longest')
        obtain rfl := UsableAt.eq_of_length_eq hnodup room.usable room'.usable hlength
        obtain ⟨_, _⟩ := p
        obtain ⟨_, _⟩ := q
        obtain rfl := Except.ok.inj (frames.symm.trans frames')
        obtain rfl := Except.ok.inj (bitmap.symm.trans bitmap')
        rfl
    | tooSmall longest' alone | split longest' alone =>
      exact absurd room (longest'.alone longest alone _ _)
  | tooSmall longest alone small =>
    cases hb with
    | nothing unusable => exact absurd longest.usable (unusable _ _)
    | beside longest' room => exact absurd room (longest.alone longest' alone _ _)
    | tooSmall => exact ⟨.error _, fun _ => rfl⟩
    | split longest' _ pos bitmapFrames whole =>
      rw [longest.frameCount_eq longest'] at small
      omega
  | @split i n k e p longest alone pos bitmapFrames whole split =>
    cases hb with
    | nothing unusable => exact absurd longest.usable (unusable _ _)
    | beside longest' room => exact absurd room (longest.alone longest' alone _ _)
    | tooSmall longest' _ small =>
      rw [longest'.frameCount_eq longest] at small
      omega
    | @split i' n' k' e' q longest' _ pos' bitmapFrames' whole' split' =>
      rw [← longest.frameCount_eq longest'] at bitmapFrames' whole'
      obtain rfl : k' = k := bitmapFrames'.trans bitmapFrames.symm
      obtain rfl : n' = n := by omega
      obtain ⟨hframes, hbitmap⟩ := Split.length_eq split split'
      refine ⟨.pool hframes hbitmap, fun hnodup => ?_⟩
      obtain rfl := UsableAt.eq_of_length_eq hnodup longest.usable longest'.usable
        (longest.length_eq longest')
      rw [Split.eq split split']

/-! ## Entries that are not usable -/

namespace FramePool

/-- Other numbers for numbered entries. -/
def renumber (σ : ℕ → ℕ) (r : MapEntry × ℕ) : MapEntry × ℕ := (r.1, σ r.2)

theorem longest?_renumber (σ : ℕ → ℕ) (rs : List (MapEntry × ℕ)) :
    longest? (rs.map (renumber σ)) = (longest? rs).map (renumber σ) := by
  induction rs with
  | nil => rfl
  | cons r rest ih =>
    rw [List.map_cons, longest?, longest?, ih]
    cases longest? rest with
    | none => rfl
    | some best =>
      exact (apply_ite (Option.map (renumber σ)) (r.1.length ≤ best.1.length) (some best)
        (some r)).symm

/-- The numbers once there is another entry before number `n`. -/
def past (n i : ℕ) : ℕ := if i < n then i else i + 1

theorem past_injective (n : ℕ) : Function.Injective (past n) := by
  intro i j h
  simp only [past] at h
  split at h <;> split at h <;> omega

/-- An entry that is not usable moves the numbers of those that come after it. -/
theorem usable_insert (before after : List MapEntry) (hunusable : e.isUsable = false) :
    (before ++ e :: after).zipIdx.filter (·.1.isUsable) =
      ((before ++ after).zipIdx.filter (·.1.isUsable)).map (renumber (past before.length)) := by
  have hbefore : before.zipIdx.map (renumber (past before.length)) = before.zipIdx := by
    refine (List.map_congr_left fun r hr => ?_).trans (List.map_id _)
    have hlt := List.snd_lt_add_of_mem_zipIdx hr
    rw [renumber, past, if_pos (by omega)]
    rfl
  have hafter : (after.zipIdx before.length).map (renumber (past before.length)) =
      after.zipIdx (before.length + 1) := by
    rw [List.zipIdx_succ]
    refine List.map_congr_left fun r hr => ?_
    have hle := List.le_snd_of_mem_zipIdx hr
    rw [renumber, past, if_neg (by omega)]
  have hfilter : ∀ rs : List (MapEntry × ℕ),
      (rs.filter (·.1.isUsable)).map (renumber (past before.length)) =
        (rs.map (renumber (past before.length))).filter (·.1.isUsable) :=
    fun rs => (List.filter_map (f := renumber _) (p := fun r => r.1.isUsable)).symm
  rw [hfilter, List.zipIdx_append, List.zipIdx_append, List.map_append, Nat.zero_add, hbefore,
    hafter, List.zipIdx_cons, List.filter_append, List.filter_append,
    List.filter_cons_of_neg (by simp [hunusable])]

/-- An entry that is not usable makes no difference, wherever it is listed. -/
theorem ofEntries_insert (before after : List MapEntry) (hunusable : e.isUsable = false) :
    ofEntries (before ++ e :: after) = ofEntries (before ++ after) := by
  simp only [ofEntries, usable_insert before after hunusable, longest?_renumber]
  cases longest? ((before ++ after).zipIdx.filter (·.1.isUsable)) with
  | none => rfl
  | some r =>
    have hrest : ∀ (rs : List (MapEntry × ℕ)) (needed : ℕ),
        (rs.map (renumber (past before.length))).filter
            (fun s => s.2 != past before.length r.2 && needed ≤ s.1.length.toNat) =
          (rs.filter (fun s => s.2 != r.2 && needed ≤ s.1.length.toNat)).map
            (renumber (past before.length)) := by
      intro rs needed
      rw [List.filter_map]
      refine congrArg _ (List.filter_congr fun s _ => ?_)
      have hne : (past before.length s.2 != past before.length r.2) = (s.2 != r.2) := by
        rw [Bool.eq_iff_iff, bne_iff_ne, bne_iff_ne, (past_injective _).ne_iff]
      simp only [Function.comp_apply, renumber, hne]
      rfl
    simp only [Option.map_some, renumber]
    refine bind_congr fun frames => ?_
    rw [hrest, longest?_renumber]
    cases longest? (((before ++ after).zipIdx.filter (·.1.isUsable)).filter _) with
    | none => rfl
    | some other => rfl

/-- After what is listed already, the rest can be listed without the entries that are not usable. -/
theorem ofEntries_append_filter (before after : List MapEntry) :
    ofEntries (before ++ after.filter (·.isUsable)) = ofEntries (before ++ after) := by
  induction after generalizing before with
  | nil => rfl
  | cons e rest ih =>
    by_cases husable : e.isUsable = true
    · rw [List.filter_cons_of_pos husable, List.append_cons, ih, ← List.append_cons]
    · have hunusable : e.isUsable = false := by simpa using husable
      rw [List.filter_cons_of_neg husable, ih, ofEntries_insert before rest hunusable]

/-- Maps that list the same usable entries in the same order are answered alike. -/
theorem ofEntries_congr (h : entries.filter (·.isUsable) = entries'.filter (·.isUsable)) :
    ofEntries entries = ofEntries entries' := by
  have hleft := ofEntries_append_filter [] entries
  rw [h, ofEntries_append_filter [] entries'] at hleft
  exact hleft.symm

end FramePool

/-- The order of the memory map does not count. For every memory map with usable memory within the
physical addresses and every permutation of it, the totals are the same and stop the kernel exactly
if all lengths together are 2^64 or more; and the total is what is usable and what is reserved. Both
maps are answered with the same error, or with pools and bitmaps of the same lengths, which are the
same ones if no two usable entries have the same length. Entries that are not usable do not count
for the answer at all, wherever they are listed. -/
theorem memory_map_in_any_order (hmemory : UsableInMemory entries) (hperm : entries.Perm entries') :
    MemoryTotals.ofEntries entries = MemoryTotals.ofEntries entries' ∧
    ((∃ stop, MemoryTotals.ofEntries entries = .error stop) ↔
      2 ^ 64 ≤ MemoryTotals.lengthSum entries) ∧
    (∀ totals, MemoryTotals.ofEntries entries = .ok totals →
      totals.total = totals.usable + totals.reserved) ∧
    (∃ answer answer', FramePool.ofEntries entries = .ok answer ∧
      FramePool.ofEntries entries' = .ok answer' ∧ FramePool.Alike answer answer' ∧
      ((usableLengths entries).Nodup → answer = answer')) ∧
    ∀ listed, listed.filter (·.isUsable) = entries.filter (·.isUsable) →
      FramePool.ofEntries listed = FramePool.ofEntries entries := by
  refine ⟨MemoryTotals.ofEntries_perm hperm, MemoryTotals.ofEntries_eq_error_iff,
    fun totals => MemoryTotals.total_eq, ?_, fun listed => FramePool.ofEntries_congr⟩
  obtain ⟨answer, hanswer, hselected⟩ := FramePool.exists_selected hmemory
  obtain ⟨answer', hanswer', hselected'⟩ := FramePool.exists_selected (hmemory.perm hperm)
  have halike := (hselected.perm hperm).alike hselected'
  refine ⟨answer, answer', hanswer, hanswer', halike.1, fun hnodup => halike.2 ?_⟩
  exact (((hperm.filter _).map _).nodup_iff).mp hnodup

/-- Two entries of the same length are pool and bitmap, and change places with their order. -/
theorem memory_map_in_any_order_of_equal_lengths :
    ∃ p q : FramePool,
      FramePool.ofEntries [⟨0x1000, 0x2000, .usable⟩, ⟨0x3000, 0x9000, .reserved⟩,
        ⟨0xc000, 0x2000, .usable⟩] = .ok (.ok p) ∧
      FramePool.ofEntries [⟨0xc000, 0x2000, .usable⟩, ⟨0x1000, 0x2000, .usable⟩,
        ⟨0x3000, 0x9000, .reserved⟩] = .ok (.ok q) ∧
      p.frames.length = q.frames.length ∧ p.bitmap.length = q.bitmap.length ∧
      p.frames = q.bitmap ∧ q.frames = p.bitmap := by
  have hmemory : UsableInMemory [⟨0x1000, 0x2000, .usable⟩, ⟨0x3000, 0x9000, .reserved⟩,
      ⟨0xc000, 0x2000, .usable⟩] := by
    unfold UsableInMemory
    decide
  have hperm : [(⟨0x1000, 0x2000, .usable⟩ : MapEntry), ⟨0x3000, 0x9000, .reserved⟩,
      ⟨0xc000, 0x2000, .usable⟩].Perm [⟨0xc000, 0x2000, .usable⟩, ⟨0x1000, 0x2000, .usable⟩,
      ⟨0x3000, 0x9000, .reserved⟩] := by
    decide
  obtain ⟨-, -, -, ⟨answer, answer', hanswer, hanswer', halike, -⟩, -⟩ :=
    memory_map_in_any_order hmemory hperm
  obtain rfl : Except.ok ⟨⟨⟨0xc000, by decide⟩, 0x2000⟩, ⟨⟨0x1000, by decide⟩, 0x2000⟩⟩ = answer :=
    Except.ok.inj hanswer
  obtain rfl : Except.ok ⟨⟨⟨0x1000, by decide⟩, 0x2000⟩, ⟨⟨0xc000, by decide⟩, 0x2000⟩⟩ = answer' :=
    Except.ok.inj hanswer'
  cases halike with
  | pool frames bitmap => exact ⟨_, _, hanswer, hanswer', frames, bitmap, rfl, rfl⟩

end KernelCore
