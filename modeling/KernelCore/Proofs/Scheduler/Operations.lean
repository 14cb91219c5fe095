import KernelCore.Scheduler.Basic
import Mathlib.Tactic

/-!
# Operations of the scheduler

What each operation does when it succeeds. Apart from registration and reset, an operation changes
the entries of the table where they are, which `Updates` says entry by entry; nothing else needs to
be known about the table.
-/

namespace KernelCore

namespace Scheduler

variable {s t u : Scheduler} {p q : ProcessDescriptor} {i j : ℕ}
  {f g : ℕ → ProcessDescriptor → ProcessDescriptor}

/-- The entry `i` of `t` is that of `s`, changed by `f i`. -/
def Updates (s t : Scheduler) (f : ℕ → ProcessDescriptor → ProcessDescriptor) : Prop :=
  ∀ i, t.table[i]? = s.table[i]?.map (f i)

theorem Updates.of_table (h : t.table = s.table) : Updates s t fun _ p => p := by
  intro i
  rw [h, Option.map_id']

theorem Updates.trans (h₁ : Updates s t f) (h₂ : Updates t u g) :
    Updates s u fun i p => g i (f i p) := by
  intro i
  rw [h₂ i, h₁ i, Option.map_map]
  rfl

theorem Updates.size (h : Updates s t f) : t.table.size = s.table.size := by
  have hbound : ∀ i, t.table.size ≤ i ↔ s.table.size ≤ i := by
    intro i
    rw [← Array.getElem?_eq_none_iff, ← Array.getElem?_eq_none_iff, h i, Option.map_eq_none_iff]
  have h₁ := hbound t.table.size
  have h₂ := hbound s.table.size
  omega

theorem Updates.eq_some (h : Updates s t f) (hq : t.table[i]? = some q) :
    ∃ p, s.table[i]? = some p ∧ q = f i p := by
  rw [h i] at hq
  obtain ⟨p, hp, rfl⟩ := Option.map_eq_some_iff.mp hq
  exact ⟨p, hp, rfl⟩

theorem Updates.of_eq_some (h : Updates s t f) (hp : s.table[i]? = some p) :
    t.table[i]? = some (f i p) := by
  rw [h i, hp, Option.map_some]

/-- Only the entries that are there count. -/
theorem Updates.congr (h : Updates s t f) (hfg : ∀ i p, s.table[i]? = some p → f i p = g i p) :
    Updates s t g := by
  intro i
  rw [h i]
  cases hp : s.table[i]? with
  | none => rfl
  | some p => rw [Option.map_some, Option.map_some, hfg i p hp]

theorem updates_modify (s : Scheduler) (i : ℕ) (f : ProcessDescriptor → ProcessDescriptor) :
    Updates s (s.modify i f) fun j p => if i = j then f p else p := by
  intro j
  rw [modify, Array.getElem?_modify]
  by_cases hij : i = j
  · simp only [if_pos hij]
  · simp only [if_neg hij, Option.map_id']

/-! ## New processes -/

/-- A descriptor takes a pid, and nothing else. -/
theorem newDescriptor_eq_ok {privilege : Ring} {heapBase heapSize : UInt64} {thread : ThreadState}
    {memory : Bool}
    (h : s.newDescriptor privilege heapBase heapSize thread memory = .ok (.ok (p, t))) :
    p.pid = s.nextPid ∧ p.state = .new ∧ t = { s with nextPid := s.nextPid + 1 } := by
  rw [newDescriptor] at h
  split at h
  · split at h
    · contradiction
    · rename_i nextPid hpid
      obtain ⟨-, rfl⟩ := addWithin_eq_ok_iff.mp hpid
      obtain ⟨rfl, rfl⟩ := Prod.mk.inj (Except.ok.inj (Except.ok.inj h))
      exact ⟨rfl, rfl, rfl⟩
  · exact absurd (Except.ok.inj h) nofun

theorem thread_newDescriptor {privilege : Ring} {heapBase heapSize : UInt64}
    {thread : ThreadState} {memory : Bool}
    (h : s.newDescriptor privilege heapBase heapSize thread memory = .ok (.ok (p, t))) :
    p.thread = thread := by
  rw [newDescriptor] at h
  split at h
  · split at h
    · contradiction
    · obtain ⟨rfl, -⟩ := Prod.mk.inj (Except.ok.inj (Except.ok.inj h))
      rfl
  · cases Except.ok.inj h

/-- A descriptor as it comes into the table. -/
def enlisted (s : Scheduler) (p : ProcessDescriptor) : ProcessDescriptor :=
  { p with
    state := if s.current.isNone then .running else .ready
    thread := { p.thread with timeSlice := s.timeSlice } }

theorem enlist_eq_ok {pid : Pid} (h : s.enlist p = .ok (pid, t)) :
    s.table.size < capacity ∧ pid = p.pid ∧
      t = { s with
        table := s.table.push (s.enlisted p)
        current := if s.current.isNone then some s.table.size else s.current } := by
  rw [enlist] at h
  split at h
  · contradiction
  · obtain ⟨rfl, rfl⟩ := Prod.mk.inj (Except.ok.inj h)
    exact ⟨by omega, rfl, rfl⟩

/-! ## States and quanta -/

theorem setState_eq_ok {pid : Pid} {state : ProcessState} (h : s.setState pid state = .ok t) :
    ∃ i p, s.slot? pid = some i ∧ s.table[i]? = some p ∧ state ≠ .running ∧
      p.state.canBecome state = true ∧ t = s.setStateAt i state := by
  rw [setState] at h
  split at h
  · contradiction
  · rename_i i hi
    split at h
    · contradiction
    · rename_i p hp
      split at h
      · contradiction
      · rename_i hallowed
        simp only [Bool.or_eq_true, decide_eq_true_eq, Bool.not_eq_true', not_or,
          Bool.not_eq_false] at hallowed
        exact ⟨i, p, hi, hp, hallowed.1, hallowed.2, (Except.ok.inj h).symm⟩

theorem setQuantum_eq_ok {ticks : ℕ} (h : s.setQuantum ticks = .ok t) :
    ticks ≠ 0 ∧ t.current = s.current ∧ t.quantum = ticks ∧
      Updates s t fun _ p =>
        { p with thread := { p.thread with timeSlice := ticks * tickPeriod } } := by
  rw [setQuantum] at h
  split at h
  · contradiction
  · rename_i hticks
    obtain rfl := Except.ok.inj h
    refine ⟨hticks, rfl, rfl, fun i => ?_⟩
    rw [Array.getElem?_map]
    rfl

/-! ## Dispatching -/

theorem nextRunnable?_eq_some (h : s.nextRunnable? = some i) :
    ∃ p, s.table[i]? = some p ∧ p.state.isRunnable = true := by
  have hrunnable := List.find?_some h
  rw [isRunnableAt] at hrunnable
  split at hrunnable
  · exact ⟨_, ‹_›, hrunnable⟩
  · contradiction

/-- What a switch makes of the entry in a slot. -/
def switched (previous : Option ℕ) (next i : ℕ) (p : ProcessDescriptor) : ProcessDescriptor :=
  if i = next then { p with state := .running }
  else if previous = some i ∧ p.state = .running then { p with state := .ready }
  else p

/-- A switch goes to a runnable process in another slot. -/
theorem dispatch?_eq_some {sw : Switch} (h : s.dispatch? = some (sw, t)) :
    ∃ p, s.table[sw.next]? = some p ∧ p.state.isRunnable = true ∧ s.current ≠ some sw.next ∧
      sw.previous = s.current ∧ sw.previousPid = s.currentPid ∧ sw.nextPid = p.pid ∧
      t.current = some sw.next ∧ t.quantum = s.quantum ∧
      Updates s t (switched s.current sw.next) := by
  rw [dispatch?] at h
  split at h
  · contradiction
  · rename_i next hnext
    obtain ⟨p, hp, hrunnable⟩ := nextRunnable?_eq_some hnext
    simp only [hp] at h
    split at h
    · contradiction
    · rename_i hother
      obtain ⟨rfl, rfl⟩ := Prod.mk.inj (Option.some.inj h)
      refine ⟨p, hp, hrunnable, hother, rfl, rfl, rfl, rfl, ?_, ?_⟩
      · cases s.current <;> rfl
      · cases hcurrent : s.current with
        | none =>
          refine (updates_modify s next fun p => { p with state := .running }).congr fun i q _ => ?_
          simp only [switched, reduceCtorEq, false_and, if_false, eq_comm]
        | some k =>
          have hne : k ≠ next := fun heq => hother (by rw [hcurrent, heq])
          have hsuspend : Updates s (s.suspendAt k) _ := updates_modify s k _
          refine (hsuspend.trans (updates_modify (s.suspendAt k) next
            fun p => { p with state := .running })).congr fun i q _ => ?_
          simp only [switched, Option.some.injEq]
          by_cases hi : next = i
          · subst hi; simp [hne]
          · by_cases hk : k = i
            · subst hk; simp [hi, Ne.symm hi]
            · simp [hi, hk, Ne.symm hi]

/-! ## Ticks -/

theorem map_eq_ok {ε α β : Type} {x : Except ε α} {y : β} {k : α → β} (h : x.map k = .ok y) :
    ∃ a, x = .ok a ∧ k a = y := by
  cases x with
  | error e => contradiction
  | ok a => exact ⟨a, rfl, Except.ok.inj h⟩

/-- A tick on the account of the process that has the processor. -/
def charged (current : Option ℕ) (i : ℕ) (p : ProcessDescriptor) : ProcessDescriptor :=
  if current = some i then
    { p with thread := { p.thread with timeUsed := p.thread.timeUsed + tickPeriod } }
  else p

theorem charge_of_some (hcurrent : s.current = some i) (hp : s.table[i]? = some p) :
    s.charge = (addWithin UInt64.size p.thread.timeUsed tickPeriod).map fun timeUsed =>
      s.modify i fun q => { q with thread := { q.thread with timeUsed } } := by
  unfold charge
  -- with the sum in sight, reducing the match would count up to the period in unary
  generalize addWithin UInt64.size = add
  as_aux_lemma =>
    simp only [hcurrent, hp]
    cases add p.thread.timeUsed tickPeriod <;> rfl

theorem charge_eq_ok (h : s.charge = .ok t) :
    t.current = s.current ∧ t.quantum = s.quantum ∧ t.ticks = s.ticks ∧
      Updates s t (charged s.current) := by
  cases hcurrent : s.current with
  | none =>
    simp only [charge, hcurrent] at h
    obtain rfl := Except.ok.inj h
    exact ⟨hcurrent, rfl, rfl, Updates.of_table rfl⟩
  | some i =>
    cases hp : s.table[i]? with
    | none =>
      simp only [charge, hcurrent, hp] at h
      obtain rfl := Except.ok.inj h
      refine ⟨hcurrent, rfl, rfl, (Updates.of_table rfl).congr fun j q hq => ?_⟩
      have hij : i ≠ j := by
        rintro rfl
        simp [hp] at hq
      rw [charged, if_neg (by simpa using hij)]
    | some p =>
      rw [charge_of_some hcurrent hp] at h
      obtain ⟨timeUsed, hsum, rfl⟩ := map_eq_ok h
      obtain ⟨-, htime⟩ := addWithin_eq_ok_iff.mp hsum
      refine ⟨hcurrent, rfl, rfl, (updates_modify s i _).congr fun j q hq => ?_⟩
      by_cases hij : i = j
      · subst hij
        obtain rfl := Option.some.inj (hp.symm.trans hq)
        rw [charged, if_pos rfl, if_pos rfl, htime]
      · rw [charged, if_neg hij, if_neg (by simpa using hij)]

/-- A tick is charged first, and then there may be a switch. -/
theorem tick_eq_ok {switch : Option Switch} (h : s.tick = .ok (switch, t)) :
    ∃ u, ({ s with ticks := s.ticks + 1 } : Scheduler).charge = .ok u ∧
      ((∃ sw, switch = some sw ∧ u.ticks % u.quantum = 0 ∧ u.dispatch? = some (sw, t)) ∨
        switch = none ∧ t = u ∧ (u.ticks % u.quantum = 0 → u.dispatch? = none)) := by
  rw [tick] at h
  split at h
  · contradiction
  · rename_i ticks hticks
    obtain ⟨-, rfl⟩ := addWithin_eq_ok_iff.mp hticks
    split at h
    · contradiction
    · rename_i u hu
      refine ⟨u, hu, ?_⟩
      split at h
      · rename_i hdue
        split at h
        · rename_i hnone
          obtain ⟨rfl, rfl⟩ := Prod.mk.inj (Except.ok.inj h)
          exact .inr ⟨rfl, rfl, fun _ => hnone⟩
        · rename_i sw v hsome
          obtain ⟨rfl, rfl⟩ := Prod.mk.inj (Except.ok.inj h)
          exact .inl ⟨sw, rfl, hdue, hsome⟩
      · rename_i hdue
        obtain ⟨rfl, rfl⟩ := Prod.mk.inj (Except.ok.inj h)
        exact .inr ⟨rfl, rfl, fun hzero => absurd hzero hdue⟩

end Scheduler

end KernelCore
