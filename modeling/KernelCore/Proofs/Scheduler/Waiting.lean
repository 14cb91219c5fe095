import KernelCore.Proofs.Scheduler.Coherence

/-!
# Waiting for the processor

Dispatching goes around the table, so a ready process is passed over only on the way to its slot.
`Before j` is the order of the slots on that way. The slots that are dispatched while `j` waits
ascend in it, whatever happens to the states of the processes and to the end of the table.
-/

namespace KernelCore

namespace Scheduler

variable {s t u : Scheduler} {i j c : ℕ} {operation : Operation}

/-- On the way around the table to slot `j`, slot `b` comes after slot `a` and before `j`. The way
that starts at `j` itself goes once around. -/
def Before (j a b : ℕ) : Prop :=
  b ≠ j ∧ (a = j ∨ a < b ∧ b < j ∨ b < j ∧ j < a ∨ j < a ∧ a < b)

theorem Before.trans {a b d : ℕ} (h₁ : Before j a b) (h₂ : Before j b d) : Before j a d := by
  unfold Before at *
  omega

theorem Before.ne {a b : ℕ} (h : Before j a b) : a ≠ b := by
  unfold Before at h
  omega

/-! ## The scan of the table -/

/-- Slot that is looked at after `d` others, from the one after the current slot `c` on. -/
def scanned (s : Scheduler) (c d : ℕ) : ℕ := (c + 1 + d) % s.table.size

theorem lt_of_isRunnableAt (h : s.isRunnableAt i = true) : i < s.table.size := by
  rw [isRunnableAt] at h
  cases hp : s.table[i]? with
  | none => simp [hp] at h
  | some p => exact (Array.getElem?_eq_some_iff.mp hp).1

/-- The current slot is looked at last, and every other one before. -/
theorem exists_scanned (hc : c < s.table.size) (hj : j < s.table.size) :
    ∃ d < s.table.size, s.scanned c d = j ∧ (j ≠ c → d + 1 < s.table.size) := by
  by_cases hcj : c < j
  · refine ⟨j - c - 1, by omega, ?_, by omega⟩
    rw [scanned, Nat.mod_eq_of_lt (by omega)]
    omega
  · refine ⟨j + s.table.size - c - 1, by omega, ?_, by omega⟩
    have hsum : c + 1 + (j + s.table.size - c - 1) = j + s.table.size := by omega
    rw [scanned, hsum, Nat.add_mod_right, Nat.mod_eq_of_lt hj]

/-- The process that is found has the first runnable slot of the scan. -/
theorem nextRunnable?_scanned (hcurrent : s.current = some c) (h : s.nextRunnable? = some i) :
    ∃ d < s.table.size, i = s.scanned c d ∧
      ∀ e < d, s.isRunnableAt (s.scanned c e) = false := by
  simp only [nextRunnable?, hcurrent, List.find?_map, Option.map_eq_some_iff] at h
  obtain ⟨d, hd, rfl⟩ := h
  obtain ⟨-, hmem, hfirst⟩ := List.find?_range_eq_some.mp hd
  refine ⟨d, List.mem_range.mp hmem, rfl, fun e he => ?_⟩
  have hnot := hfirst e he
  simpa [scanned] using hnot

/-- Without a current slot the scan begins at slot 0. -/
theorem nextRunnable?_first (hcurrent : s.current = none) (h : s.nextRunnable? = some i) :
    ∀ j < i, s.isRunnableAt j = false := by
  intro j hj
  have hi := lt_of_isRunnableAt (List.find?_some h)
  have hself : ∀ d < s.table.size, (0 + d) % s.table.size = d := by
    intro d hd
    rw [Nat.zero_add, Nat.mod_eq_of_lt hd]
  simp only [nextRunnable?, hcurrent, List.find?_map, Option.map_eq_some_iff] at h
  obtain ⟨d, hd, hdi⟩ := h
  obtain ⟨-, hmem, hfirst⟩ := List.find?_range_eq_some.mp hd
  rw [hself d (List.mem_range.mp hmem)] at hdi
  have hnot := hfirst j (by omega)
  simpa only [Function.comp_apply, hself j (by omega), Bool.not_eq_true', Bool.not_eq_true]
    using hnot

/-- A switch goes where the scan ends. -/
theorem nextRunnable?_of_dispatch? {sw : Switch} (h : s.dispatch? = some (sw, t)) :
    s.nextRunnable? = some sw.next := by
  rw [dispatch?] at h
  split at h
  · contradiction
  · rename_i next hnext
    split at h
    · contradiction
    · split at h
      · contradiction
      · obtain ⟨rfl, -⟩ := Prod.mk.inj (Option.some.inj h)
        exact hnext

/-- Whoever is found in place of a runnable process is on the way to it. -/
theorem before_of_nextRunnable? (hcurrent : s.current = some c) (hc : c < s.table.size)
    (hj : s.isRunnableAt j = true) (h : s.nextRunnable? = some i) (hi : i ≠ j) : Before j c i := by
  have hjlt := lt_of_isRunnableAt hj
  obtain ⟨d, hd, rfl, hfirst⟩ := nextRunnable?_scanned hcurrent h
  obtain ⟨e, he, hje, -⟩ := exists_scanned hc hjlt
  have hde : d < e := by
    rcases Nat.lt_trichotomy d e with hlt | rfl | hlt
    · exact hlt
    · exact absurd hje hi
    · have hnot := hfirst e hlt
      rw [hje, hj] at hnot
      contradiction
  -- both slots are a sum that exceeds the table at most once
  have hmod : ∀ k < s.table.size, s.scanned c k = c + 1 + k ∧ c + 1 + k < s.table.size ∨
      s.scanned c k + s.table.size = c + 1 + k ∧ s.table.size ≤ c + 1 + k := by
    intro k hk
    rw [scanned]
    rcases Nat.lt_or_ge (c + 1 + k) s.table.size with hlt | hge
    · exact .inl ⟨Nat.mod_eq_of_lt hlt, hlt⟩
    · refine .inr ⟨?_, hge⟩
      rw [Nat.mod_eq_sub_mod hge, Nat.mod_eq_of_lt (by omega)]
      omega
  have hmod₁ := hmod d hd
  have hmod₂ := hmod e he
  rw [hje] at hmod₂
  unfold Before
  omega

/-- With a runnable process that is not current there is one to switch to. -/
theorem dispatch?_ne_none (hcurrent : s.current = some c) (hc : c < s.table.size)
    (hj : s.isRunnableAt j = true) (hjc : j ≠ c) : ∃ sw t, s.dispatch? = some (sw, t) := by
  have hjlt := lt_of_isRunnableAt hj
  obtain ⟨e, he, hje, hlast⟩ := exists_scanned hc hjlt
  cases hnext : s.nextRunnable? with
  | none =>
    simp only [nextRunnable?, hcurrent, List.find?_eq_none, List.mem_map, List.mem_range] at hnext
    exact absurd hj (hnext j ⟨e, he, hje⟩)
  | some i =>
    obtain ⟨p, hp, -⟩ := nextRunnable?_eq_some hnext
    have hother : ¬ s.current = some i := by
      intro hsame
      obtain rfl := Option.some.inj (hcurrent.symm.trans hsame)
      exact (before_of_nextRunnable? hcurrent hc hj hnext hjc.symm).ne rfl
    simp only [dispatch?, hnext, hp, if_neg hother]
    exact ⟨_, _, rfl⟩

/-! ## Steps -/

theorem isRunnableAt_of_charge (h : s.charge = .ok u) :
    u.isRunnableAt j = s.isRunnableAt j := by
  obtain ⟨-, -, -, hupdates⟩ := charge_eq_ok h
  have hstate : ∀ p, (charged s.current j p).state = p.state := by
    intro p
    unfold charged
    split <;> rfl
  simp only [isRunnableAt, hupdates j]
  cases s.table[j]? with
  | none => rfl
  | some p => exact congrArg ProcessState.isRunnable (hstate p)

theorem Coherent.before_of_dispatch? (h : Coherent s) {sw : Switch}
    (hdispatch : s.dispatch? = some (sw, t)) (hj : s.isRunnableAt j = true)
    (hcurrent : s.current = some c) (hother : sw.next ≠ j) : Before j c sw.next :=
  before_of_nextRunnable? hcurrent (h.current_lt hcurrent) hj (nextRunnable?_of_dispatch? hdispatch)
    hother

/-- A switch away from a process that waits goes on towards it. -/
theorem Step.before (h : Coherent s) {sw : Switch} (hstep : Step s t operation (some sw))
    (hj : s.isRunnableAt j = true) (hc : s.current = some c) (hi : t.current = some i)
    (hother : i ≠ j) : Before j c i := by
  obtain ⟨-, -, -, -, -, hnext, -⟩ := hstep.handsOver h
  obtain rfl := Option.some.inj (hnext.symm.trans hi)
  cases hstep with
  | ticked charge switched =>
    rcases switched with ⟨sw', hsw, hdispatch⟩ | ⟨hnone, -⟩
    · obtain rfl := Option.some.inj hsw
      have hu := (h.ticks (s.ticks + 1)).charge charge
      have hjt : isRunnableAt _ j = true := (isRunnableAt_of_charge charge).trans hj
      exact hu.before_of_dispatch? hdispatch hjt ((charge_eq_ok charge).1.trans hc) hother
    · contradiction
  | dispatched switched => exact h.before_of_dispatch? switched hj hc hother

/-- Without a switch the processor stays where it is. -/
theorem Step.current_eq (hstep : Step s t operation none) (hreset : operation ≠ .reset)
    (hc : s.current = some c) : t.current = some c := by
  cases hstep with
  | quiet _ current _ => rw [current, hc]
  | enlisted _ result => simp [result, hc]
  | ticked charge switched =>
    rcases switched with ⟨sw, hsw, -⟩ | ⟨-, rfl⟩
    · contradiction
    · exact (charge_eq_ok charge).1.trans hc
  | moved set =>
    obtain ⟨-, -, -, -, -, -, rfl⟩ := setState_eq_ok set
    exact hc
  | retimed set => rw [(setQuantum_eq_ok set).2.1, hc]
  | reset => exact absurd rfl hreset

/-! ## Waiting -/

/-- Operations without a reset, at each of which the process in slot `j` can run and none of which
gives it the processor, with the slots that are made current by a switch meanwhile. -/
inductive Waits (j : ℕ) : Session → List ℕ → Session → Prop
  | start {w : Session} (runnable : w.scheduler.isRunnableAt j = true) : Waits j w [] w
  | stay {operation : Operation} {w w' w'' : Session} {slots : List ℕ}
      (runnable : w.scheduler.isRunnableAt j = true) (noReset : operation ≠ .reset)
      (done : operation.perform w = .ok (none, w')) (rest : Waits j w' slots w'') :
      Waits j w slots w''
  | switch {operation : Operation} {sw : Switch} {w w' w'' : Session} {i : ℕ} {slots : List ℕ}
      (runnable : w.scheduler.isRunnableAt j = true)
      (done : operation.perform w = .ok (some sw, w')) (current : w'.scheduler.current = some i)
      (other : i ≠ j) (rest : Waits j w' slots w'') : Waits j w (i :: slots) w''

theorem Waits.runnable {w w' : Session} {slots : List ℕ} (h : Waits j w slots w') :
    w.scheduler.isRunnableAt j = true := by
  cases h <;> assumption

/-- The slots that are dispatched ascend towards the one that waits, from the current one on. -/
theorem Waits.pairwise {w w' : Session} {slots : List ℕ} (h : Waits j w slots w')
    (hw : Coherent w.scheduler) (hc : w.scheduler.current = some c) :
    (c :: slots).Pairwise (Before j) ∧ Coherent w'.scheduler := by
  induction h generalizing c with
  | start => exact ⟨List.pairwise_singleton _ _, hw⟩
  | stay runnable noReset done rest ih =>
    have hstep := Operation.step done
    exact ih (hw.step hstep) (hstep.current_eq noReset hc)
  | switch runnable done current other rest ih =>
    have hstep := Operation.step done
    have hbefore := hstep.before hw runnable hc current other
    obtain ⟨hrest, hend⟩ := ih (hw.step hstep) current
    refine ⟨List.pairwise_cons.mpr ⟨fun x hx => ?_, hrest⟩, hend⟩
    rcases List.mem_cons.mp hx with rfl | hx
    · exact hbefore
    · exact hbefore.trans (List.rel_of_pairwise_cons hrest hx)

theorem Waits.exists_current {w w' : Session} {slots : List ℕ} (h : Waits j w slots w')
    (hw : Coherent w.scheduler) : ∃ c, w.scheduler.current = some c := by
  have hj := lt_of_isRunnableAt h.runnable
  obtain ⟨c, -, hc, -⟩ := hw.exists_current (Array.getElem?_eq_getElem hj)
  exact ⟨c, hc⟩

theorem Waits.runnable_end {w w' : Session} {slots : List ℕ} (h : Waits j w slots w') :
    w'.scheduler.isRunnableAt j = true := by
  induction h with
  | start runnable => exact runnable
  | stay _ _ _ _ ih => exact ih
  | switch _ _ _ _ _ ih => exact ih

/-- Below the limits of the counters a tick is charged. -/
theorem charge_eq_ok_of_lt
    (htime : ∀ p, s.currentProcess = some p → p.thread.timeUsed + tickPeriod < UInt64.size) :
    ∃ u, s.charge = .ok u := by
  cases hcurrent : s.current with
  | none => exact ⟨s, by simp only [charge, hcurrent]⟩
  | some i =>
    cases hp : s.table[i]? with
    | none => exact ⟨s, by simp only [charge, hcurrent, hp]⟩
    | some p =>
      have hprocess : s.currentProcess = some p := by
        rw [currentProcess, hcurrent, Option.bind_some, hp]
      have hsum := addWithin_eq_ok_iff.mpr ⟨htime p hprocess, rfl⟩
      rw [charge_of_some hcurrent hp, hsum]
      exact ⟨_, rfl⟩

theorem tick_of_dispatch? {sw : Switch} (hticks : s.ticks + 1 < UInt64.size)
    (hcharge : ({ s with ticks := s.ticks + 1 } : Scheduler).charge = .ok u)
    (hdue : u.ticks % u.quantum = 0) (hdispatch : u.dispatch? = some (sw, t)) :
    s.tick = .ok (some sw, t) := by
  have hsum := addWithin_eq_ok_iff.mpr ⟨hticks, rfl⟩
  simp only [tick, hsum, hcharge, if_pos hdue, hdispatch]

/-- What happens at the next chance to switch. -/
theorem Coherent.switches (h : Coherent s) (hj : s.isRunnableAt j = true)
    (hother : s.current ≠ some j) :
    (∃ sw t, s.dispatch? = some (sw, t)) ∧
      (s.ticks + 1 < UInt64.size →
        (∀ p, s.currentProcess = some p → p.thread.timeUsed + tickPeriod < UInt64.size) →
        (s.ticks + 1) % s.quantum = 0 → ∃ sw t, s.tick = .ok (some sw, t)) := by
  obtain ⟨c, -, hc, -⟩ := h.exists_current (Array.getElem?_eq_getElem (lt_of_isRunnableAt hj))
  have hclt := h.current_lt hc
  have hjc : j ≠ c := by
    rintro rfl
    exact hother hc
  refine ⟨dispatch?_ne_none hc hclt hj hjc, fun hticks htime hdue => ?_⟩
  obtain ⟨u, hu⟩ := charge_eq_ok_of_lt (s := { s with ticks := s.ticks + 1 }) htime
  obtain ⟨hcurrent, hquantum, hcount, hupdates⟩ := charge_eq_ok hu
  have hsize := hupdates.size
  obtain ⟨sw, t, hdispatch⟩ := dispatch?_ne_none (hcurrent.trans hc) (by rw [hsize]; exact hclt)
    ((isRunnableAt_of_charge hu).trans hj) hjc
  refine ⟨sw, t, tick_of_dispatch? hticks hu ?_ hdispatch⟩
  rw [hcount, hquantum]
  exact hdue

/-- Nobody overtakes a waiting process twice. While the process in slot `j` can run and is not given
the processor, each of the other slots is given it at most once; and as long as it waits behind
another process, dispatching switches to somebody, and so does every tick that ends a quantum. -/
theorem waiting_is_bounded {operations : List Operation} {w w' : Session} {slots : List ℕ}
    (hrun : performAll operations .start = .ok w) (hwait : Waits j w slots w') :
    slots.Nodup ∧ (w'.scheduler.current ≠ some j →
      (∃ sw w'', Operation.perform w' .dispatch = .ok (some sw, w'')) ∧
      (w'.scheduler.ticks + 1 < UInt64.size →
        (∀ p, w'.scheduler.currentProcess = some p →
          p.thread.timeUsed + tickPeriod < UInt64.size) →
        (w'.scheduler.ticks + 1) % w'.scheduler.quantum = 0 →
        ∃ sw w'', Operation.perform w' .tick = .ok (some sw, w''))) := by
  have hcoherent : Coherent w.scheduler :=
    performAll_induction (coherent_empty 10) hrun fun _ h hstep => h.step hstep
  obtain ⟨c, hc⟩ := hwait.exists_current hcoherent
  obtain ⟨hpairwise, hend⟩ := hwait.pairwise hcoherent hc
  refine ⟨(List.pairwise_cons.mp hpairwise).2.imp Before.ne, fun hother => ?_⟩
  obtain ⟨⟨sw, t, hdispatch⟩, htick⟩ := hend.switches hwait.runnable_end hother
  refine ⟨⟨sw, { w' with scheduler := t }, ?_⟩, fun hticks htime hdue => ?_⟩
  · simp only [Operation.perform, hdispatch]
  · obtain ⟨sw', t', ht'⟩ := htick hticks htime hdue
    exact ⟨sw', { w' with scheduler := t' }, by simp only [Operation.perform, ht', Except.map]⟩

/-- A process in slot 0 waits while the processor goes to slot 2, a fourth process is registered,
and the processor goes to that one. Nine ticks were counted before, so the next one switches. -/
theorem waiting_is_bounded_of_four_processes :
    ∃ w w', performAll (List.replicate 9 .tick ++ List.replicate 4 (.adopt true) ++
        [.enlist 0, .enlist 0, .enlist 0, .dispatch]) .start = .ok w ∧
      Waits 0 w [2, 3] w' ∧ [2, 3].Nodup ∧
      (∃ sw w'', Operation.perform w' .dispatch = .ok (some sw, w'')) ∧
      ∃ sw w'', Operation.perform w' .tick = .ok (some sw, w'') := by
  obtain ⟨w, hrun⟩ : ∃ w, performAll (List.replicate 9 .tick ++ List.replicate 4 (.adopt true) ++
      [.enlist 0, .enlist 0, .enlist 0, .dispatch]) .start = .ok w := ⟨_, rfl⟩
  obtain ⟨w', hwait, hcurrent, hticks, hquantum, hused⟩ : ∃ w', Waits 0 w [2, 3] w' ∧
      w'.scheduler.current = some 3 ∧ w'.scheduler.ticks = 9 ∧ w'.scheduler.quantum = 10 ∧
      w'.scheduler.currentProcess.map (·.thread.timeUsed) = some 0 := by
    obtain rfl := Except.ok.inj hrun
    exact ⟨_, .switch rfl (show Operation.perform _ .dispatch = .ok (some _, _) from rfl) rfl
      (by decide)
      (.stay rfl (show Operation.enlist 0 ≠ .reset from nofun) rfl
        (.switch rfl (show Operation.perform _ .dispatch = .ok (some _, _) from rfl) rfl (by decide)
          (.start rfl))), rfl, rfl, rfl, rfl⟩
  obtain ⟨hnodup, hnext⟩ := waiting_is_bounded hrun hwait
  obtain ⟨hdispatch, htick⟩ := hnext (by rw [hcurrent]; decide)
  refine ⟨w, w', hrun, hwait, hnodup, hdispatch, htick ?_ ?_ ?_⟩
  · rw [hticks]; decide
  · intro p hp
    have hzero : p.thread.timeUsed = 0 := by simpa [hp] using hused
    rw [hzero]; decide
  · rw [hticks, hquantum]

end Scheduler

end KernelCore
