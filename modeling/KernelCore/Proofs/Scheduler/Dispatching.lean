import KernelCore.Proofs.Guarded
import KernelCore.Proofs.Scheduler.LifeCycle
import KernelCore.Proofs.Scheduler.Waiting

/-!
# Dispatching to the nearest process

In any state of the processes, a switch goes to the first slot after the current one, around the
table, whose process can run, and changes nothing but the two slots of the switch. A scheduler with
its current slot in the table never looks a slot up that is not there, nor divides by the size of an
empty table; `guardedDispatch` stops where that would happen.
-/

namespace KernelCore

namespace Scheduler

variable {s t : Scheduler} {sw : Switch} {c i : ℕ}

/-! ## Guarded switches -/

/-- The first runnable slot at one of some distances from a start. -/
def guardedFind (s : Scheduler) (start : ℕ) : List ℕ → Except Misuse (Option ℕ)
  | [] => .ok none
  | d :: rest => do
    let i ← guardedMod (← guardedSum UInt64.size start d) s.table.size
    let p ← guardedSlot s.table i
    if p.state.isRunnable then pure (some i) else s.guardedFind start rest

def guardedNext? (s : Scheduler) : Except Misuse (Option ℕ) := do
  let start ← match s.current with
    | none => pure 0
    | some c => guardedSum UInt64.size c 1
  s.guardedFind start (List.range s.table.size)

/-- Takes the processor from the current process, and tells its pid. -/
def guardedLeave (s : Scheduler) : Except Misuse (Option Pid × Scheduler) :=
  match s.current with
  | none => .ok (none, s)
  | some c => (guardedSlot s.table c).map fun p => (some p.pid, s.suspendAt c)

/-- Dispatches with a look at every index and divisor. -/
def guardedDispatch (s : Scheduler) : Except Misuse (Option Switch × Scheduler) := do
  match ← s.guardedNext? with
  | none => pure (none, s)
  | some next =>
    if s.current = some next then pure (none, s)
    else
      let (previousPid, suspended) ← s.guardedLeave
      let p ← guardedSlot suspended.table next
      pure (some ⟨s.current, next, previousPid, p.pid⟩,
        { suspended.setStateAt next .running with current := some next })

/-- With room for the sums the guarded scan finds what the scan finds. -/
theorem guardedFind_eq {start : ℕ} {offsets : List ℕ}
    (hsum : ∀ d ∈ offsets, start + d < UInt64.size)
    (hsize : offsets ≠ [] → 0 < s.table.size) :
    s.guardedFind start offsets =
      .ok ((offsets.map fun d => (start + d) % s.table.size).find? s.isRunnableAt) := by
  induction offsets with
  | nil => rfl
  | cons d rest ih =>
    have hpos := hsize (List.cons_ne_nil d rest)
    have hlt : (start + d) % s.table.size < s.table.size := Nat.mod_lt _ hpos
    have hrest := ih (fun e he => hsum e (List.mem_cons_of_mem d he)) fun _ => hpos
    have hrunnable : s.isRunnableAt ((start + d) % s.table.size) =
        s.table[(start + d) % s.table.size].state.isRunnable := by
      rw [isRunnableAt, Array.getElem?_eq_getElem hlt]
    rw [guardedFind, guardedSum_of_lt (hsum d List.mem_cons_self)]
    simp only [guardedMod_of_pos _ hpos, guardedSlot_of_lt hlt, hrest, List.map_cons,
      List.find?_cons, hrunnable, bind, Except.bind, pure, Except.pure]
    cases s.table[(start + d) % s.table.size].state.isRunnable <;> rfl

theorem guardedNext?_eq (hsize : s.table.size ≤ 1024)
    (hcurrent : ∀ c, s.current = some c → c < s.table.size) :
    s.guardedNext? = .ok s.nextRunnable? := by
  have hscan : ∀ start ≤ 1024, s.guardedFind start (List.range s.table.size) =
      .ok (((List.range s.table.size).map fun d => (start + d) % s.table.size).find?
        s.isRunnableAt) := by
    intro start hstart
    refine guardedFind_eq (fun d hd => ?_) fun hne => ?_
    · have hlt := List.mem_range.mp hd
      rw [UInt64.size]
      omega
    · exact Nat.pos_of_ne_zero fun hzero => hne (by rw [hzero, List.range_zero])
  cases hc : s.current with
  | none =>
    simp only [guardedNext?, nextRunnable?, hc, pure, Except.pure, bind, Except.bind]
    exact hscan 0 (by omega)
  | some c =>
    have hlt := hcurrent c hc
    have hsum : guardedSum UInt64.size c 1 = .ok (c + 1) :=
      guardedSum_of_lt (by rw [UInt64.size]; omega)
    simp only [guardedNext?, nextRunnable?, hc, hsum, bind, Except.bind]
    exact hscan (c + 1) (by omega)

/-- In a scheduler with its current slot in the table, every index and divisor of a switch is
good. -/
theorem guardedDispatch_eq (hsize : s.table.size ≤ 1024)
    (hcurrent : ∀ c, s.current = some c → c < s.table.size) :
    s.guardedDispatch = .ok (s.dispatch?.elim (none, s) fun r => (some r.1, r.2)) := by
  rw [guardedDispatch, guardedNext?_eq hsize hcurrent]
  cases hnext : s.nextRunnable? with
  | none => simp only [dispatch?, hnext, bind, Except.bind]; rfl
  | some next =>
    obtain ⟨p, hp, -⟩ := nextRunnable?_eq_some hnext
    by_cases hsame : s.current = some next
    · simp only [dispatch?, hnext, hp, bind, Except.bind, if_pos hsame]
      rfl
    · cases hc : s.current with
      | none =>
        simp only [dispatch?, hnext, hp, hc, reduceCtorEq, if_false, guardedLeave, guardedSlot,
          bind, Except.bind, currentPid, currentProcess]
        rfl
      | some c =>
        have hlt := hcurrent c hc
        have hne : c ≠ next := fun heq => hsame (by rw [hc, heq])
        have hentry : guardedSlot (s.suspendAt c).table next = .ok p := by
          have hupdates := updates_modify s c fun p =>
            if p.state = .running then { p with state := .ready } else p
          have hlook : (s.suspendAt c).table[next]? = some p := by
            rw [suspendAt, hupdates.of_eq_some hp, if_neg hne]
          simp only [guardedSlot, hlook]
        simp only [dispatch?, hnext, hp, hc, Option.some.injEq, hne, if_false, guardedLeave,
          guardedSlot_of_lt hlt, Except.map, hentry, bind, Except.bind, currentPid,
          currentProcess, Option.bind_some, Array.getElem?_eq_getElem hlt, Option.map_some]
        rfl

/-! ## The nearest process -/

/-- A switch may go to the process in slot `i`. -/
def CanRun (s : Scheduler) (i : ℕ) : Prop :=
  ∃ p, s.table[i]? = some p ∧ (p.state = .ready ∨ p.state = .idle)

theorem isRunnableAt_iff : s.isRunnableAt i = true ↔ s.CanRun i := by
  have hstate : ∀ p : ProcessDescriptor,
      p.state.isRunnable = true ↔ p.state = .ready ∨ p.state = .idle := by
    intro p
    cases p.state <;> simp [ProcessState.isRunnable]
  rw [isRunnableAt, CanRun]
  cases s.table[i]? with
  | none => simp
  | some p => simp [hstate]

/-- The first slot from the current one on, around the table, whose process can run. If there is no
current slot, slot 0 is the first of all; otherwise the current one is not among them. -/
inductive Nearest (s : Scheduler) : ℕ → Prop
  | first {i : ℕ} (current : s.current = none) (canRun : s.CanRun i)
      (passed : ∀ j < i, ¬ s.CanRun j) : Nearest s i
  | after {c d : ℕ} (current : s.current = some c) (pos : 0 < d) (lt : d < s.table.size)
      (canRun : s.CanRun ((c + d) % s.table.size))
      (passed : ∀ e, 0 < e → e < d → ¬ s.CanRun ((c + e) % s.table.size)) :
      Nearest s ((c + d) % s.table.size)

/-- All that a switch does: the processor goes to the next slot, and a process that ran in the
current one is ready. -/
structure Passes (s t : Scheduler) (sw : Switch) : Prop where
  previous : sw.previous = s.current
  previousPid : sw.previousPid = s.currentPid
  nextPid : ∃ p, s.table[sw.next]? = some p ∧ sw.nextPid = p.pid
  table : Updates s t (switched s.current sw.next)
  rest : t = { s with table := t.table, current := some sw.next }

theorem passes_of_dispatch? (h : s.dispatch? = some (sw, t)) : Passes s t sw := by
  obtain ⟨p, hp, -, -, hprevious, hpreviousPid, hnextPid, hcurrent, hquantum, htable⟩ :=
    dispatch?_eq_some h
  obtain ⟨hpid, hticks⟩ := counts_of_dispatch? h
  refine ⟨hprevious, hpreviousPid, ⟨p, hp, hnextPid⟩, htable, ?_⟩
  rw [← hcurrent, ← hpid, ← hticks, ← hquantum]

theorem nearest_of_dispatch? (hcurrent : ∀ c, s.current = some c → c < s.table.size)
    (h : s.dispatch? = some (sw, t)) : Nearest s sw.next := by
  obtain ⟨p, hp, hrunnable, hother, -⟩ := dispatch?_eq_some h
  have hnext := nextRunnable?_of_dispatch? h
  have hcan : s.CanRun sw.next := isRunnableAt_iff.mp (List.find?_some hnext)
  have hpassed : ∀ {j}, s.isRunnableAt j = false → ¬ s.CanRun j := by
    intro j hj hcan
    rw [isRunnableAt_iff.mpr hcan] at hj
    contradiction
  cases hc : s.current with
  | none => exact .first hc hcan fun j hj => hpassed (nextRunnable?_first hc hnext j hj)
  | some c =>
    have hlt := hcurrent c hc
    obtain ⟨d, hd, hplace, hfirst⟩ := nextRunnable?_scanned hc hnext
    have hplace' : sw.next = (c + (d + 1)) % s.table.size := by
      rw [hplace, scanned, Nat.add_right_comm, Nat.add_assoc]
    -- the last slot of the scan is the current one
    have hd' : d + 1 < s.table.size := by
      refine Nat.lt_of_le_of_ne hd fun hlast => hother ?_
      rw [hplace', hlast, Nat.add_mod_right, Nat.mod_eq_of_lt hlt, hc]
    rw [hplace'] at hcan ⊢
    refine .after hc d.succ_pos hd' hcan fun e he hed => ?_
    have hscanned : (c + e) % s.table.size = s.scanned c (e - 1) := by
      rw [scanned, Nat.add_assoc, Nat.add_sub_cancel' he]
    rw [hscanned]
    exact hpassed (hfirst (e - 1) (by omega))

/-- Without a current slot any runnable process is one to switch to. -/
theorem dispatch?_ne_none_of_vacant (hcurrent : s.current = none) (hi : s.isRunnableAt i = true) :
    ∃ sw t, s.dispatch? = some (sw, t) := by
  have hlt := lt_of_isRunnableAt hi
  cases hnext : s.nextRunnable? with
  | none =>
    simp only [nextRunnable?, hcurrent, List.find?_eq_none, List.mem_map, List.mem_range] at hnext
    refine absurd hi (hnext i ⟨i, hlt, ?_⟩)
    rw [Nat.zero_add, Nat.mod_eq_of_lt hlt]
  | some next =>
    obtain ⟨p, hp, -⟩ := nextRunnable?_eq_some hnext
    simp only [dispatch?, hnext, hp, hcurrent, reduceCtorEq, if_false]
    exact ⟨_, _, rfl⟩

/-- There is nowhere to switch to if nobody can run but the current process. -/
theorem dispatch?_eq_none_iff (hcurrent : ∀ c, s.current = some c → c < s.table.size) :
    s.dispatch? = none ↔ ∀ i, s.CanRun i → s.current = some i := by
  constructor
  · intro hnone i hi
    have hrunnable := isRunnableAt_iff.mpr hi
    cases hc : s.current with
    | none =>
      obtain ⟨sw, t, hsome⟩ := dispatch?_ne_none_of_vacant hc hrunnable
      rw [hnone] at hsome
      contradiction
    | some c =>
      by_contra hne
      obtain ⟨sw, t, hsome⟩ := dispatch?_ne_none hc (hcurrent c hc) hrunnable
        fun heq => hne (by rw [heq])
      rw [hnone] at hsome
      contradiction
  · intro honly
    cases hdispatch : s.dispatch? with
    | none => rfl
    | some r =>
      obtain ⟨sw, t⟩ := r
      obtain ⟨-, -, -, hother, -⟩ := dispatch?_eq_some hdispatch
      have hnext := nextRunnable?_of_dispatch? hdispatch
      exact absurd (honly sw.next (isRunnableAt_iff.mp (List.find?_some hnext))) hother

/-- For any states of the processes: a switch reads no slot that is not there and divides by no
zero; there is none exactly if no process but the current one can run, and then nothing changes;
otherwise it goes to the nearest slot whose process can run, and changes only what a switch does. -/
theorem dispatch_goes_to_nearest (hsize : s.table.size ≤ 1024)
    (hcurrent : ∀ c, s.current = some c → c < s.table.size) :
    s.guardedDispatch = .ok (s.dispatch?.elim (none, s) fun r => (some r.1, r.2)) ∧
      (s.dispatch? = none ↔ ∀ i, s.CanRun i → s.current = some i) ∧
      ∀ sw t, s.dispatch? = some (sw, t) → Nearest s sw.next ∧ Passes s t sw :=
  ⟨guardedDispatch_eq hsize hcurrent, dispatch?_eq_none_iff hcurrent, fun _ _ h =>
    ⟨nearest_of_dispatch? hcurrent h, passes_of_dispatch? h⟩⟩

/-- Processes in some states, with the processor at slot `c`. -/
def linedUp (states : List ProcessState) (c : ℕ) : Scheduler :=
  { table := (states.mapIdx fun i state =>
      ⟨i + 1, 0, state, Ring.innermost, 0, 0, 0, .blank⟩).toArray
    current := some c
    nextPid := states.length + 1
    ticks := 7
    quantum := 10 }

/-- The scan comes back to the current process, which could run, and there is no switch. -/
example : (linedUp [.waiting, .ready, .suspended] 1).dispatch? = none := by decide

/-- From the last slot the scan goes on at slot 0, whose process is terminated, and ends at an idle
process, before it comes to a ready one. -/
theorem dispatch_goes_to_nearest_of_last_slot :
    ∃ s sw t, s = linedUp [.terminated, .idle, .ready, .running] 3 ∧
      s.guardedDispatch = .ok (some sw, t) ∧ sw.next = 1 ∧ Nearest s 1 ∧ Passes s t sw := by
  obtain ⟨hguarded, -, hgoes⟩ :=
    dispatch_goes_to_nearest (s := linedUp [.terminated, .idle, .ready, .running] 3) (by decide)
      (by decide)
  obtain ⟨sw, t, hdispatch, hnext⟩ : ∃ sw t,
      (linedUp [.terminated, .idle, .ready, .running] 3).dispatch? = some (sw, t) ∧
        sw.next = 1 := ⟨_, _, rfl, rfl⟩
  obtain ⟨hnearest, hpasses⟩ := hgoes sw t hdispatch
  rw [hdispatch] at hguarded
  exact ⟨_, sw, t, rfl, hguarded, hnext, hnext ▸ hnearest, hpasses⟩

end Scheduler

end KernelCore
