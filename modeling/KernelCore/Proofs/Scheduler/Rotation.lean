import KernelCore.Proofs.Scheduler.Dispatching
import KernelCore.Proofs.Scheduler.Quantum
import Mathlib.Data.List.Rotate

/-!
# Rotation by the timer

As long as only the timer ticks, the processes that run or are ready take turns. Each turn lasts a
whole quantum, and one round of turns brings back the state that it began with, but for the time
that is charged. A turn rotates the `round`, the list of the slots that are to come; the run of a
round is an induction over that list.
-/

namespace KernelCore

/-- The process has the processor, or is ready for it. -/
def ProcessDescriptor.isActive (p : ProcessDescriptor) : Bool :=
  p.state = .running || p.state = .ready

theorem ProcessDescriptor.isActive_iff {p : ProcessDescriptor} :
    p.isActive = true ↔ p.state = .running ∨ p.state = .ready := by
  simp [isActive]

namespace Scheduler

variable {s t u : Scheduler} {p : ProcessDescriptor} {c i m n r : ℕ} {sw : Switch}
  {rest later earlier : List ℕ}

/-! ## Rounds -/

def isActiveAt (s : Scheduler) (i : ℕ) : Bool := s.table[i]?.any (·.isActive)

/-- The slots that get the processor, one after the other, after slot `c`. -/
def round (s : Scheduler) (c : ℕ) : List ℕ :=
  ((List.range s.table.size).rotate (c + 1)).filter s.isActiveAt

theorem isActiveAt_eq_true : s.isActiveAt i = true ↔ ∃ p, s.table[i]? = some p ∧ p.isActive := by
  rw [isActiveAt, Option.any_eq_true]

theorem lt_of_isActiveAt (h : s.isActiveAt i = true) : i < s.table.size := by
  obtain ⟨p, hp, -⟩ := isActiveAt_eq_true.mp h
  exact (Array.getElem?_eq_some_iff.mp hp).1

theorem mem_round : i ∈ s.round c ↔ s.isActiveAt i = true := by
  rw [round, List.mem_filter, List.mem_rotate, List.mem_range]
  exact ⟨And.right, fun h => ⟨lt_of_isActiveAt h, h⟩⟩

theorem nodup_round (s : Scheduler) (c : ℕ) : (s.round c).Nodup :=
  (List.nodup_rotate.mpr List.nodup_range).filter _

/-- A round has a turn for each active process. -/
theorem length_round (s : Scheduler) (c : ℕ) :
    (s.round c).length = s.table.countP (·.isActive) := by
  have htable : (List.range s.table.size).map (fun i => s.table[i]?) = s.table.toList.map some := by
    refine List.ext_getElem (by simp) fun i hi _ => ?_
    simp only [List.length_map, List.length_range] at hi
    simp [hi]
  calc (s.round c).length = (List.range s.table.size).countP s.isActiveAt := by
        rw [round, ← List.countP_eq_length_filter, (List.rotate_perm _ _).countP_eq]
    _ = (s.table.toList.map some).countP fun p? => p?.any (·.isActive) := by
        rw [← htable, List.countP_map]
        rfl
    _ = s.table.countP (·.isActive) := by
        rw [List.countP_map, ← Array.countP_toList]
        rfl

/-- The round ends where it begins. -/
theorem exists_round_eq (h : s.isActiveAt c = true) : ∃ l, s.round c = l ++ [c] := by
  have hlt := lt_of_isActiveAt h
  have hrotate : (List.range s.table.size).rotate (c + 1) =
      (List.range s.table.size).drop (c + 1) ++ List.range c ++ [c] := by
    rw [List.rotate_eq_drop_append_take (by rw [List.length_range]; exact hlt), List.take_range,
      Nat.min_eq_left hlt, List.range_succ, List.append_assoc]
  refine ⟨((List.range s.table.size).drop (c + 1) ++ List.range c).filter s.isActiveAt, ?_⟩
  rw [round, hrotate, List.filter_append _ [c], List.filter_singleton, h]
  rfl

/-- A turn rotates the round. -/
theorem round_of_turn (h : s.round c = r :: rest) : s.round r = rest ++ [r] := by
  obtain ⟨l₁, l₂, hsplit, hskipped, hr, hrest⟩ := List.filter_eq_cons_iff.mp h
  have hpos : l₁.length < ((List.range s.table.size).rotate (c + 1)).length := by
    rw [hsplit, List.length_append, List.length_cons]
    omega
  have hplace : (l₁.length + (c + 1)) % s.table.size = r := by
    have hget := List.getElem_rotate (List.range s.table.size) (c + 1) l₁.length hpos
    simp only [hsplit, List.getElem_range, List.length_range] at hget
    simpa using hget.symm
  have hrotate : (List.range s.table.size).rotate (r + 1) = l₂ ++ (l₁ ++ [r]) := by
    have hturn := List.rotate_append_length_eq (l₁ ++ [r]) l₂
    rw [List.append_assoc, List.singleton_append, ← hsplit, List.rotate_rotate] at hturn
    rw [← hturn, ← List.rotate_mod, ← List.rotate_mod _ (c + 1 + _), ← hplace]
    congr 1
    simp only [List.length_range, List.length_append, List.length_singleton, Nat.mod_add_mod]
    congr 1
    omega
  rw [round, hrotate, List.filter_append, List.filter_append, hrest,
    List.filter_eq_nil_iff.mpr hskipped, List.filter_singleton, hr]
  rfl

/-- The first slot of a round with more than one turn is not the one that the round ends with. -/
theorem ne_of_round (h : s.round c = r :: rest) (hrest : rest ≠ [])
    (hc : s.isActiveAt c = true) : r ≠ c := by
  obtain ⟨l, hl⟩ := exists_round_eq hc
  have hnodup := nodup_round s c
  have hlast : rest.getLast hrest = c := by
    rw [← List.getLast_cons hrest (a := r)]
    simp only [← h, hl, List.getLast_append_singleton]
  rw [h] at hnodup
  rintro rfl
  exact (List.nodup_cons.mp hnodup).1 (hlast ▸ List.getLast_mem hrest)

/-! ## Changes of the table -/

/-- Slot `c` has the processor, and all others that are active are ready for it. -/
structure Standing (s : Scheduler) (c : ℕ) : Prop where
  current : s.current = some c
  active : s.isActiveAt c = true
  state : ∀ {i : ℕ} {p : ProcessDescriptor}, s.table[i]? = some p → p.isActive = true →
    p.state = if i = c then .running else .ready
  notIdle : ∀ {i : ℕ} {p : ProcessDescriptor}, s.table[i]? = some p → p.state ≠ .idle

/-- An entry after some turns, of which slot `c` gets the next one and slot `i` had `bill i`
ticks. -/
def turned (c : ℕ) (bill : ℕ → ℕ) (i : ℕ) (p : ProcessDescriptor) : ProcessDescriptor :=
  { p with
    state := if p.isActive then if i = c then .running else .ready else p.state
    thread := { p.thread with timeUsed := p.thread.timeUsed + bill i * tickPeriod } }

/-- All that changes in `m` ticks. -/
structure Turned (s t : Scheduler) (m c : ℕ) (bill : ℕ → ℕ) : Prop where
  table : Updates s t (turned c bill)
  rest : t = { s with table := t.table, current := some c, ticks := s.ticks + m }

variable {bill bill' : ℕ → ℕ}

theorem isActive_turned : (turned c bill i p).isActive = p.isActive := by
  unfold turned ProcessDescriptor.isActive
  cases p.state <;> by_cases hi : i = c <;> simp [hi]

theorem turned_turned {c' : ℕ} :
    turned c' bill' i (turned c bill i p) = turned c' (bill + bill') i p := by
  have hactive : (turned c bill i p).isActive = p.isActive := isActive_turned
  rw [turned, hactive]
  cases hp : p.isActive with
  | true => simp [turned, hp, Nat.add_mul, Nat.add_assoc]
  | false => simp [turned, hp, Nat.add_mul, Nat.add_assoc]

theorem Turned.trans {m' c' : ℕ} (h : Turned s t m c bill) (h' : Turned t u m' c' bill') :
    Turned s u (m + m') c' (bill + bill') := by
  refine ⟨(h.table.trans h'.table).congr fun i p _ => turned_turned, ?_⟩
  rw [h'.rest, h.rest, Nat.add_assoc]

theorem Turned.isActiveAt (h : Turned s t m c bill) : t.isActiveAt = s.isActiveAt := by
  funext i
  rw [Scheduler.isActiveAt, Scheduler.isActiveAt, h.table i, Option.any_map]
  congr 1
  funext p
  exact isActive_turned

theorem Turned.round (h : Turned s t m c bill) : t.round = s.round := by
  funext k
  rw [Scheduler.round, Scheduler.round, h.isActiveAt, h.table.size]

theorem Standing.turned {c' : ℕ} (hs : Standing s c) (h : Turned s t m c' bill)
    (hc' : s.isActiveAt c' = true) : Standing t c' := by
  refine ⟨by rw [h.rest], by rw [h.isActiveAt, hc'], ?_, ?_⟩
  · intro i q hq hactive
    obtain ⟨p, -, rfl⟩ := h.table.eq_some hq
    rw [isActive_turned] at hactive
    rw [Scheduler.turned, if_pos hactive]
  · intro i q hq
    obtain ⟨p, hp, rfl⟩ := h.table.eq_some hq
    have hidle := hs.notIdle hp
    rw [Scheduler.turned]
    split
    · split <;> simp
    · exact hidle

/-- As long as slot `c` keeps the processor, only the accounts change. -/
theorem Standing.turned_eq (hs : Standing s c) (hp : s.table[i]? = some p) :
    Scheduler.turned c bill i p =
      { p with thread := { p.thread with
        timeUsed := p.thread.timeUsed + bill i * tickPeriod } } := by
  have hstate : (if p.isActive then if i = c then .running else .ready else p.state) = p.state := by
    split
    · exact (hs.state hp ‹_›).symm
    · rfl
  rw [Scheduler.turned, hstate]

theorem Standing.refl (hs : Standing s c) : Turned s s 0 c 0 := by
  refine ⟨(Updates.of_table rfl).congr fun i p hp => ?_, by rw [Nat.add_zero, ← hs.current]⟩
  rw [hs.turned_eq hp, Pi.zero_apply, Nat.zero_mul, Nat.add_zero]

/-! ## Ticks -/

/-- Ticks one after the other, and the switches that they decide on. -/
def tickAll : ℕ → Scheduler → Except Panic (List (Option Switch) × Scheduler)
  | 0, s => .ok ([], s)
  | m + 1, s =>
    match s.tick with
    | .error stop => .error stop
    | .ok (switch, t) =>
      match tickAll m t with
      | .error stop => .error stop
      | .ok (switches, u) => .ok (switch :: switches, u)

theorem tickAll_succ {switch : Option Switch} {switches : List (Option Switch)}
    (h : s.tick = .ok (switch, t)) (hrest : tickAll m t = .ok (switches, u)) :
    tickAll (m + 1) s = .ok (switch :: switches, u) := by
  rw [tickAll, h]
  simp only [hrest]

theorem tickAll_add {k : ℕ} {xs ys : List (Option Switch)} (h : tickAll k s = .ok (xs, t))
    (hrest : tickAll m t = .ok (ys, u)) : tickAll (k + m) s = .ok (xs ++ ys, u) := by
  induction k generalizing s xs with
  | zero =>
    obtain ⟨rfl, rfl⟩ := Prod.mk.inj (Except.ok.inj h)
    rwa [Nat.zero_add]
  | succ k ih =>
    rw [tickAll] at h
    split at h
    · contradiction
    · rename_i switch v htick
      split at h
      · contradiction
      · rename_i switches w hlater
        obtain ⟨rfl, rfl⟩ := Prod.mk.inj (Except.ok.inj h)
        rw [Nat.add_right_comm]
        exact tickAll_succ htick (ih hlater)

/-- The process that has the processor is charged. -/
theorem Standing.charge (hs : Standing s c)
    (htime : ∀ p, s.table[c]? = some p → p.thread.timeUsed + tickPeriod < UInt64.size) :
    ∃ u, ({ s with ticks := s.ticks + 1 } : Scheduler).charge = .ok u ∧
      Turned s u 1 c (Pi.single c 1) := by
  have hcharge : ∃ u, ({ s with ticks := s.ticks + 1 } : Scheduler).charge = .ok u := by
    refine charge_eq_ok_of_lt fun p hp => htime p ?_
    rwa [currentProcess, hs.current] at hp
  obtain ⟨u, hu⟩ := hcharge
  obtain ⟨hcurrent, hquantum, hticks, hupdates⟩ := charge_eq_ok hu
  have hpid := nextPid_of_charge hu
  refine ⟨u, hu, hupdates.congr fun i p hp => ?_, ?_⟩
  · rw [hs.turned_eq hp, charged]
    by_cases hi : i = c
    · rw [if_pos (by rw [hi]; exact hs.current), hi, Pi.single_eq_same, Nat.one_mul]
    · have hother : s.current ≠ some i := by
        rw [hs.current]
        exact fun h => hi (Option.some.inj h).symm
      rw [if_neg hother, Pi.single_eq_of_ne hi, Nat.zero_mul, Nat.add_zero]
  · calc u = ⟨u.table, u.current, u.nextPid, u.ticks, u.quantum⟩ := rfl
      _ = _ := by rw [hcurrent.trans hs.current, hpid, hticks, hquantum]

/-- A tick within a quantum switches nowhere. -/
theorem tick_of_not_due (hticks : s.ticks + 1 < UInt64.size)
    (hcharge : ({ s with ticks := s.ticks + 1 } : Scheduler).charge = .ok u)
    (hdue : u.ticks % u.quantum ≠ 0) : s.tick = .ok (none, u) := by
  have hsum := addWithin_eq_ok_iff.mpr ⟨hticks, rfl⟩
  simp only [tick, hsum, hcharge, if_neg hdue]

/-- Within a quantum nothing happens but that the current process is charged. -/
theorem Standing.wait (hs : Standing s c) (hquiet : ∀ k < m, ¬ s.quantum ∣ s.ticks + (k + 1))
    (hticks : s.ticks + m < UInt64.size)
    (htime : ∀ p, s.table[c]? = some p → p.thread.timeUsed + m * tickPeriod < UInt64.size) :
    ∃ t, tickAll m s = .ok (List.replicate m none, t) ∧ Turned s t m c (Pi.single c m) := by
  induction m generalizing s with
  | zero =>
    rw [Pi.single_zero]
    exact ⟨s, rfl, hs.refl⟩
  | succ m ih =>
    have hmul : (m + 1) * tickPeriod = tickPeriod + m * tickPeriod := by
      rw [Nat.add_mul, Nat.one_mul, Nat.add_comm]
    obtain ⟨u, hcharge, hu⟩ := hs.charge fun p hp => by
      have := htime p hp
      omega
    have hcount : u.ticks = s.ticks + 1 ∧ u.quantum = s.quantum := by
      rw [hu.rest]
      exact ⟨rfl, rfl⟩
    obtain ⟨hcount, hquantum⟩ := hcount
    have hdue : u.ticks % u.quantum ≠ 0 := by
      rw [hcount, hquantum]
      exact fun hzero => hquiet 0 m.succ_pos (Nat.dvd_of_mod_eq_zero hzero)
    have htick := tick_of_not_due (by omega) hcharge hdue
    obtain ⟨t, hrest, ht⟩ := ih (hs.turned hu hs.active)
      (fun k hk => by
        rw [hquantum, hcount, Nat.add_assoc, Nat.add_comm 1]
        exact hquiet (k + 1) (by omega))
      (by omega)
      (fun q hq => by
        obtain ⟨p, hp, rfl⟩ := hu.table.eq_some hq
        have hbound := htime p hp
        rw [hs.turned_eq hp]
        simp only [Pi.single_eq_same, Nat.one_mul]
        omega)
    refine ⟨t, tickAll_succ htick hrest, ?_⟩
    rw [Nat.add_comm m 1, Pi.single_add]
    exact hu.trans ht

theorem Standing.isRunnableAt_iff (hs : Standing s c) :
    s.isRunnableAt i = true ↔ s.isActiveAt i = true ∧ i ≠ c := by
  rw [Scheduler.isRunnableAt_iff, isActiveAt_eq_true]
  constructor
  · rintro ⟨p, hp, hready | hidle⟩
    · have hactive := ProcessDescriptor.isActive_iff.mpr (.inr hready)
      refine ⟨⟨p, hp, hactive⟩, fun hi => ?_⟩
      have hstate := hs.state hp hactive
      rw [if_pos hi, hready] at hstate
      contradiction
    · exact absurd hidle (hs.notIdle hp)
  · rintro ⟨⟨p, hp, hactive⟩, hi⟩
    have hstate := hs.state hp hactive
    rw [if_neg hi] at hstate
    exact ⟨p, hp, .inl hstate⟩

/-- The scan of the table comes to the next slot of the round first. -/
theorem Standing.nextRunnable? (hs : Standing s c) (hround : s.round c = r :: rest) (hr : r ≠ c) :
    s.nextRunnable? = some r := by
  have hscan : (List.range s.table.size).map (fun d => (c + 1 + d) % s.table.size) =
      (List.range s.table.size).rotate (c + 1) := by
    refine List.ext_getElem (by simp) fun d hd _ => ?_
    simp only [List.getElem_map, List.getElem_range, List.getElem_rotate, List.length_range,
      Nat.add_comm d]
  obtain ⟨l₁, l₂, hsplit, hskipped, hactive, -⟩ := List.filter_eq_cons_iff.mp hround
  simp only [Scheduler.nextRunnable?, hs.current, hscan]
  refine List.find?_eq_some_iff_append.mpr
    ⟨hs.isRunnableAt_iff.mpr ⟨hactive, hr⟩, l₁, l₂, hsplit, fun i hi => ?_⟩
  rw [Bool.not_eq_true']
  refine Bool.eq_false_iff.mpr fun hrunnable => hskipped i hi ?_
  exact (hs.isRunnableAt_iff.mp hrunnable).1

/-- What a switch makes of an entry is what a turn makes of it. -/
theorem Standing.switched_eq (hs : Standing s c) (hactive : s.isActiveAt r = true)
    (hp : s.table[i]? = some p) : switched s.current r i p = Scheduler.turned r 0 i p := by
  have hturned : Scheduler.turned r 0 i p =
      { p with state := if p.isActive then if i = r then .running else .ready else p.state } := by
    rw [Scheduler.turned, Pi.zero_apply, Nat.zero_mul, Nat.add_zero]
  rw [hturned, switched, hs.current]
  by_cases hi : i = r
  · obtain ⟨q, hq, hq'⟩ := isActiveAt_eq_true.mp hactive
    rw [hi, hq] at hp
    obtain rfl := Option.some.inj hp
    rw [if_pos hi, if_pos hq', if_pos hi]
  · rw [if_neg hi]
    cases hp' : p.isActive with
    | true =>
      have hstate := hs.state hp hp'
      by_cases hic : i = c
      · rw [if_pos hic] at hstate
        rw [if_pos ⟨by rw [hic], hstate⟩, if_pos rfl, if_neg hi]
      · rw [if_neg hic] at hstate
        rw [if_neg (by simp [Ne.symm hic]), if_pos rfl, if_neg hi, ← hstate]
    | false =>
      have hrun : p.state ≠ .running := by
        intro hrun
        rw [ProcessDescriptor.isActive_iff.mpr (.inl hrun)] at hp'
        contradiction
      rw [if_neg (by simp [hrun]), if_neg Bool.false_ne_true]

/-- The next slot of the round is the one to switch to. -/
theorem Standing.dispatch (hs : Standing s c) (hround : s.round c = r :: rest) (hr : r ≠ c) :
    ∃ sw t, s.dispatch? = some (sw, t) ∧ sw.next = r ∧
      (∃ p, s.table[r]? = some p ∧ sw.nextPid = p.pid) ∧ Turned s t 0 r 0 := by
  have hactive : s.isActiveAt r = true := mem_round.mp (hround ▸ List.mem_cons_self)
  obtain ⟨sw, t, hdispatch⟩ := dispatch?_ne_none hs.current (lt_of_isActiveAt hs.active)
    (hs.isRunnableAt_iff.mpr ⟨hactive, hr⟩) hr
  have hnext : sw.next = r :=
    Option.some.inj ((nextRunnable?_of_dispatch? hdispatch).symm.trans (hs.nextRunnable? hround hr))
  obtain ⟨-, -, hpid, htable, hrest⟩ := passes_of_dispatch? hdispatch
  refine ⟨sw, t, hdispatch, hnext, hnext ▸ hpid, htable.congr fun i p hp => ?_, ?_⟩
  · rw [hnext]
    exact hs.switched_eq hactive hp
  · rw [hnext] at hrest
    exact hrest

/-! ## Turns -/

/-- What the ticks of a turn decide that ends with a switch. -/
def turnTicks (n : ℕ) (sw : Switch) : List (Option Switch) :=
  List.replicate (n - 1) none ++ [some sw]

/-- A turn: the current process is charged for a quantum, and then the next slot of the round gets
the processor. -/
theorem Standing.turn (hs : Standing s c) (hround : s.round c = r :: rest) (hr : r ≠ c)
    (hpos : 0 < s.quantum) (hdvd : s.quantum ∣ s.ticks)
    (hticks : s.ticks + s.quantum < UInt64.size)
    (htime : ∀ p, s.table[c]? = some p →
      p.thread.timeUsed + s.quantum * tickPeriod < UInt64.size) :
    ∃ sw t, tickAll s.quantum s = .ok (turnTicks s.quantum sw, t) ∧ sw.next = r ∧
      (∃ p, s.table[r]? = some p ∧ sw.nextPid = p.pid) ∧
      Turned s t s.quantum r (Pi.single c s.quantum) := by
  obtain ⟨m, hm⟩ : ∃ m, s.quantum = m + 1 := ⟨s.quantum - 1, by omega⟩
  have hmul : s.quantum * tickPeriod = m * tickPeriod + tickPeriod := by
    rw [hm, Nat.add_mul, Nat.one_mul]
  have hquiet : ∀ k < m, ¬ s.quantum ∣ s.ticks + (k + 1) := by
    intro k hk hdue
    have hle := Nat.le_of_dvd k.succ_pos ((Nat.dvd_add_right hdvd).mp hdue)
    omega
  obtain ⟨u, hwait, hu⟩ := hs.wait hquiet (by omega) fun p hp => by
    have := htime p hp
    omega
  have hsu := hs.turned hu hs.active
  obtain ⟨v, hcharge, hv⟩ := hsu.charge fun q hq => by
    obtain ⟨p, hp, rfl⟩ := hu.table.eq_some hq
    have := htime p hp
    rw [hs.turned_eq hp]
    simp only [Pi.single_eq_same]
    omega
  have hsv := hsu.turned hv hsu.active
  have huv := hu.trans hv
  rw [← hm, ← Pi.single_add, ← hm] at huv
  obtain ⟨sw, t, hdispatch, hnext, ⟨q, hq, hpid⟩, ht⟩ :=
    hsv.dispatch (by rw [huv.round]; exact hround) hr
  have hcount : u.ticks + 1 = s.ticks + s.quantum ∧ v.ticks = s.ticks + s.quantum ∧
      v.quantum = s.quantum := by
    refine ⟨?_, ?_, ?_⟩
    · rw [hu.rest, hm, Nat.add_assoc]
    · rw [huv.rest]
    · rw [huv.rest]
  have htick : u.tick = .ok (some sw, t) := by
    refine tick_of_dispatch? (by omega) hcharge ?_ hdispatch
    rw [hcount.2.1, hcount.2.2]
    exact Nat.mod_eq_zero_of_dvd (Nat.dvd_add hdvd (Nat.dvd_refl _))
  refine ⟨sw, t, ?_, hnext, ?_, by simpa using huv.trans ht⟩
  · have hall := tickAll_add hwait (tickAll_succ htick (m := 0) (u := t) rfl)
    rw [turnTicks, hm, Nat.add_sub_cancel]
    exact hall
  · obtain ⟨p, hp, rfl⟩ := huv.table.eq_some hq
    exact ⟨p, hp, hpid⟩

/-- Ticks for `n` of them at each slot of a list. -/
def turnsBill (n : ℕ) (slots : List ℕ) (i : ℕ) : ℕ := slots.count i * n

theorem turnsBill_cons (n : ℕ) (slots : List ℕ) :
    turnsBill n (c :: slots) = Pi.single c n + turnsBill n slots := by
  funext i
  rw [turnsBill, List.count_cons, Pi.add_apply, turnsBill, Nat.add_mul, Nat.add_comm]
  by_cases hi : i = c
  · rw [hi, Pi.single_eq_same, if_pos (by simp), Nat.one_mul]
  · rw [Pi.single_eq_of_ne hi, if_neg (by simpa using Ne.symm hi), Nat.zero_mul]

/-- Turns: the slots that come first in the round get the processor one after the other. The last of
them is not charged yet. -/
theorem Standing.turns (hs : Standing s c) (hround : s.round c = later ++ earlier)
    (htwo : 2 ≤ (later ++ earlier).length) (hpos : 0 < s.quantum) (hdvd : s.quantum ∣ s.ticks)
    (hticks : s.ticks + later.length * s.quantum < UInt64.size)
    (htime : ∀ i ∈ (c :: later).dropLast, ∀ p, s.table[i]? = some p → p.thread.timeUsed +
      turnsBill s.quantum (c :: later).dropLast i * tickPeriod < UInt64.size) :
    ∃ (switches : List Switch) (t : Scheduler), tickAll (later.length * s.quantum) s =
        .ok (switches.flatMap (turnTicks s.quantum), t) ∧
      switches.map (·.next) = later ∧
      (∀ sw ∈ switches, ∃ p, s.table[sw.next]? = some p ∧ sw.nextPid = p.pid) ∧
      Turned s t (later.length * s.quantum) ((c :: later).getLast (List.cons_ne_nil c later))
        (turnsBill s.quantum (c :: later).dropLast) := by
  induction later generalizing s c earlier with
  | nil =>
    have hzero : turnsBill s.quantum (List.dropLast [c]) = 0 := by
      funext i
      simp [turnsBill]
    simp only [List.length_nil, Nat.zero_mul, hzero]
    exact ⟨[], s, rfl, rfl, by simp, hs.refl⟩
  | cons r later ih =>
    have hrest : later ++ earlier ≠ [] := by
      rw [List.cons_append, List.length_cons] at htwo
      exact List.ne_nil_of_length_pos (by omega)
    have hr := ne_of_round hround hrest hs.active
    have hactive : s.isActiveAt r = true := by
      rw [List.cons_append] at hround
      exact mem_round.mp (hround ▸ List.mem_cons_self)
    rw [List.dropLast_cons_cons, turnsBill_cons] at htime ⊢
    rw [List.length_cons, Nat.add_mul, Nat.one_mul] at hticks
    obtain ⟨sw, u, hfirst, hnext, hpid, hu⟩ := hs.turn hround hr hpos hdvd (by omega)
      fun p hp => by
        have hbound := htime c List.mem_cons_self p hp
        rw [Pi.add_apply, Pi.single_eq_same, Nat.add_mul] at hbound
        omega
    have hquantum : u.quantum = s.quantum := by rw [hu.rest]
    have hcount : u.ticks = s.ticks + s.quantum := by rw [hu.rest]
    have hnextRound : u.round r = later ++ (earlier ++ [r]) := by
      rw [List.cons_append] at hround
      rw [hu.round, round_of_turn hround, List.append_assoc]
    obtain ⟨switches, t, hlater, hslots, hpids, ht⟩ := ih (hs.turned hu hactive) hnextRound
      (by simp only [List.length_append, List.length_cons] at htwo ⊢; omega)
      (by rw [hquantum]; exact hpos)
      (by rw [hquantum, hcount]; exact Nat.dvd_add hdvd (Nat.dvd_refl _))
      (by rw [hquantum, hcount]; omega)
      (fun i hi q hq => by
        obtain ⟨p, hp, rfl⟩ := hu.table.eq_some hq
        have hbound := htime i (List.mem_cons_of_mem c hi) p hp
        rw [Pi.add_apply, Nat.add_mul] at hbound
        simp only [Scheduler.turned, hquantum]
        omega)
    rw [hquantum] at hlater ht
    have hall := tickAll_add hfirst hlater
    have hlength : (r :: later).length * s.quantum = s.quantum + later.length * s.quantum := by
      rw [List.length_cons, Nat.add_mul, Nat.one_mul, Nat.add_comm]
    rw [hlength]
    refine ⟨sw :: switches, t, by rw [List.flatMap_cons]; exact hall, ?_, ?_, ?_⟩
    · rw [List.map_cons, hnext, hslots]
    · intro sw' hsw'
      rcases List.mem_cons.mp hsw' with rfl | hlater'
      · rw [hnext]
        exact hpid
      · obtain ⟨q, hq, hqpid⟩ := hpids sw' hlater'
        obtain ⟨p, hp, rfl⟩ := hu.table.eq_some hq
        exact ⟨p, hp, hqpid⟩
    · exact hu.trans ht

/-! ## Fairness -/

theorem Coherent.standing (h : Coherent s) (hruns : RunsAt s c) : Standing s c := by
  obtain ⟨p, hp, hrun⟩ := hruns
  have hactive : ∀ {q : ProcessDescriptor}, q.state = .running → q.isActive = true :=
    fun hq => ProcessDescriptor.isActive_iff.mpr (.inl hq)
  refine ⟨h.running hp hrun, isActiveAt_eq_true.mpr ⟨p, hp, hactive hrun⟩, ?_, ?_⟩
  · intro i q hq hq'
    by_cases hi : i = c
    · rw [hi, hp] at hq
      rw [if_pos hi, ← Option.some.inj hq, hrun]
    · rw [if_neg hi]
      refine (ProcessDescriptor.isActive_iff.mp hq').resolve_left fun hrun' => hi ?_
      exact Option.some.inj ((h.running hq hrun').symm.trans (h.running hp hrun))
  · intro i q hq
    exact (h.settled hq).2

/-- The quantum is never zero. -/
theorem Step.quantum_pos {operation : Operation} {switch : Option Switch}
    (h : Step s t operation switch) (hpos : 0 < s.quantum) : 0 < t.quantum := by
  cases h with
  | quiet _ _ quantum => rwa [quantum]
  | enlisted _ result => rwa [result]
  | ticked charge switched =>
    obtain ⟨-, hquantum, -⟩ := charge_eq_ok charge
    rcases switched with ⟨sw, -, hdispatch⟩ | ⟨-, rfl⟩
    · rwa [(passes_of_dispatch? hdispatch).rest, hquantum]
    · rwa [hquantum]
  | dispatched switched => rwa [(passes_of_dispatch? switched).rest]
  | moved set =>
    obtain ⟨-, -, -, -, -, -, rfl⟩ := setState_eq_ok set
    exact hpos
  | retimed set =>
    obtain ⟨hne, -, hquantum, -⟩ := setQuantum_eq_ok set
    rw [hquantum]
    exact Nat.pos_of_ne_zero hne
  | reset result => rwa [result]

/-- A round of turns. As long as only the timer ticks, each active process gets the processor for a
quantum, in the cyclic order of the slots from the current one on, which comes last; each is charged
for its quantum, and nothing else has changed in the end but the count of ticks. -/
theorem rotation_is_fair {operations : List Operation} {pending : List ProcessDescriptor} {k : ℕ}
    (hrun : performAll operations .start = .ok ⟨s, pending⟩) (hruns : RunsAt s c)
    (hk : s.table.countP (·.isActive) = k) (htwo : 2 ≤ k) (hdvd : s.quantum ∣ s.ticks)
    (hticks : s.ticks + k * s.quantum < UInt64.size)
    (htime : ∀ (i : ℕ) (p : ProcessDescriptor), s.table[i]? = some p → p.isActive = true →
      p.thread.timeUsed + s.quantum * tickPeriod < UInt64.size) :
    ∃ (switches : List Switch) (t : Scheduler),
      tickAll (k * s.quantum) s = .ok (switches.flatMap (turnTicks s.quantum), t) ∧
      switches.length = k ∧ switches.map (·.next) = s.round c ∧
      (∀ sw ∈ switches, ∃ p, s.table[sw.next]? = some p ∧ sw.nextPid = p.pid) ∧
      t = { s with table := t.table, ticks := s.ticks + k * s.quantum } ∧
      Updates s t fun _ p => if p.isActive then { p with thread := { p.thread with
        timeUsed := p.thread.timeUsed + s.quantum * tickPeriod } } else p := by
  have hcoherent : Coherent s :=
    performAll_induction (coherent_empty 10) hrun fun _ h hstep => h.step hstep
  have hpos : 0 < s.quantum := performAll_induction (J := fun s => 0 < s.quantum) (by decide) hrun
    fun _ h hstep => hstep.quantum_pos h
  have hs := hcoherent.standing hruns
  obtain ⟨l, hl⟩ := exists_round_eq hs.active
  have hlength : (s.round c).length = k := (length_round s c).trans hk
  have hdrop : (c :: s.round c).dropLast = c :: l := by
    rw [hl, ← List.cons_append, List.dropLast_concat]
  -- every active slot had one turn
  have hbill : ∀ i, turnsBill s.quantum (c :: l) i = if s.isActiveAt i then s.quantum else 0 := by
    intro i
    have hcount : (c :: l).count i = (s.round c).count i := by
      rw [hl, List.count_append, List.count_singleton, List.count_cons]
    rw [turnsBill, hcount]
    by_cases hi : s.isActiveAt i = true
    · rw [if_pos hi, List.count_eq_one_of_mem (nodup_round s c) (mem_round.mpr hi), Nat.one_mul]
    · rw [if_neg hi, List.count_eq_zero_of_not_mem (mem_round.not.mpr hi), Nat.zero_mul]
  have hactive : ∀ {i p}, s.table[i]? = some p → s.isActiveAt i = p.isActive := by
    intro i p hp
    rw [isActiveAt, hp, Option.any_some]
  obtain ⟨switches, t, hticked, hslots, hpids, htable, hrest⟩ := hs.turns
    (List.append_nil (s.round c)).symm (by rw [List.append_nil, hlength]; exact htwo) hpos hdvd
    (by rw [hlength]; exact hticks)
    (fun i hi p hp => by
      rw [hdrop] at hi ⊢
      have hi' : s.isActiveAt i = true := by
        rcases List.mem_cons.mp hi with rfl | hi
        · exact hs.active
        · exact mem_round.mp (hl ▸ List.mem_append_left [c] hi)
      rw [hbill, if_pos hi']
      exact htime i p hp (hactive hp ▸ hi'))
  have hlast : (c :: s.round c).getLast (List.cons_ne_nil c _) = c := by
    simp only [hl, List.getLast_cons (List.append_ne_nil_of_right_ne_nil l (List.cons_ne_nil c [])),
      List.getLast_append_singleton]
  rw [hlength] at hticked hrest
  rw [hlast] at htable hrest
  refine ⟨switches, t, hticked, ?_, hslots, hpids, ?_, htable.congr fun i p hp => ?_⟩
  · rw [← hlength, ← hslots, List.length_map]
  · rw [← hs.current] at hrest
    exact hrest
  · rw [hs.turned_eq hp, hdrop, hbill, hactive hp]
    by_cases hp' : p.isActive = true
    · rw [if_pos hp', if_pos hp']
    · rw [if_neg hp', if_neg hp', Nat.zero_mul, Nat.add_zero]

/-- Four processes with a quantum of two ticks: the second one runs, and the third one is
terminated. -/
def threeActive : List Operation :=
  .setQuantum 2 :: List.replicate 4 (.adopt true) ++ List.replicate 4 (.enlist 0) ++
    [.dispatch, .setState 3 .terminated]

/-- In six ticks the processor goes to slots 3 and 0 and comes back to slot 1. -/
theorem rotation_is_fair_of_three_processes :
    ∃ s pending, performAll threeActive .start = .ok ⟨s, pending⟩ ∧ RunsAt s 1 ∧
      s.table.countP (·.isActive) = 3 ∧ s.quantum = 2 ∧ s.ticks = 0 ∧
      ∃ switches t, tickAll 6 s = .ok (switches, t) ∧ switches.map (Option.map (·.next)) =
        [none, some 3, none, some 0, none, some 1] ∧ t = { s with table := t.table, ticks := 6 } ∧
      Updates s t fun _ p => if p.isActive then { p with thread := { p.thread with
        timeUsed := p.thread.timeUsed + 2 * tickPeriod } } else p := by
  obtain ⟨⟨s, pending⟩, hrun, h⟩ : ∃ w, performAll threeActive .start = .ok w ∧
      some (decide (RunsAt w.scheduler 1 ∧ w.scheduler.table.countP (·.isActive) = 3 ∧
        w.scheduler.quantum = 2 ∧ w.scheduler.ticks = 0 ∧ w.scheduler.round 1 = [3, 0, 1] ∧
        w.scheduler.table.all fun p => p.thread.timeUsed = 0)) = some true :=
    exists_performAll (by decide +kernel)
  simp only [Option.some.injEq, decide_eq_true_eq] at h
  obtain ⟨hruns, hk, hquantum, hticks, hround, hunused⟩ := h
  obtain ⟨switches, t, hticked, -, hslots, -, hrest, htable⟩ := rotation_is_fair hrun hruns hk
    (by decide) (by rw [hquantum, hticks]; decide) (by rw [hquantum, hticks]; decide)
    fun i p hp _ => by
      have hzero := Array.all_eq_true.mp hunused i (Array.getElem?_eq_some_iff.mp hp).1
      rw [(Array.getElem?_eq_some_iff.mp hp).2, decide_eq_true_eq] at hzero
      rw [hzero, hquantum]
      decide
  have hcount : s.ticks + 3 * s.quantum = 6 := by rw [hquantum, hticks]
  rw [hcount] at hrest
  rw [hquantum] at hticked htable
  refine ⟨s, pending, hrun, hruns, hk, hquantum, hticks, _, t, hticked, ?_, hrest, htable⟩
  have hnone : ∀ switch : Switch, (turnTicks 2 switch).map (Option.map (·.next)) =
      [none, some switch.next] := fun _ => rfl
  have hnext := congrArg (List.flatMap fun next => [none, some next]) (hslots.trans hround)
  rw [List.flatMap_map] at hnext
  simp only [List.map_flatMap, hnone]
  exact hnext

end Scheduler

end KernelCore
