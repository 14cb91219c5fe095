import KernelCore.Proofs.Scheduler.LifeCycle
import KernelCore.Proofs.Scheduler.Waiting

/-!
# Who has the processor after a chance to switch

The current process may be moved along its life cycle while it keeps the processor. At the next
dispatch it is running, or blocked, or there was nobody to switch to: a process that was blocked and
woken is not marked as running when it is alone, and only a running process can be blocked.
-/

namespace KernelCore

namespace Scheduler

variable {s t : Scheduler} {p : ProcessDescriptor} {i c : ℕ} {w w' : Session}

/-- A process in one of these states keeps the processor until the next switch only. -/
def Blocked (state : ProcessState) : Prop :=
  state = .waiting ∨ state = .sleeping ∨ state = .suspended ∨ state = .terminated

/-- The current process is ready, and nobody else can run. -/
def Alone (s : Scheduler) : Prop :=
  ∃ c p, s.current = some c ∧ s.table[c]? = some p ∧ p.state = .ready ∧
    ∀ j, s.isRunnableAt j = true → j = c

theorem Alone.dispatch? (h : Alone s) : s.dispatch? = none := by
  obtain ⟨c, p, hcurrent, -, -, halone⟩ := h
  cases hdispatch : s.dispatch? with
  | none => rfl
  | some result =>
    obtain ⟨sw, t⟩ := result
    obtain ⟨q, hq, hrunnable, hother, -⟩ := dispatch?_eq_some hdispatch
    have hnext : s.isRunnableAt sw.next = true := by simp only [isRunnableAt, hq, hrunnable]
    exact absurd (hcurrent.trans (congrArg some (halone _ hnext).symm)) hother

theorem currentProcess_eq_some (h : s.currentProcess = some p) :
    ∃ c, s.current = some c ∧ s.table[c]? = some p := by
  rw [currentProcess] at h
  exact Option.bind_eq_some_iff.mp h

/-- Without a switch the current process is running or blocked, or it is alone. -/
theorem Coherent.occupant (h : Coherent s) (hdispatch : s.dispatch? = none)
    (hp : s.currentProcess = some p) : p.state = .running ∨ Blocked p.state ∨ Alone s := by
  obtain ⟨c, hcurrent, hc⟩ := currentProcess_eq_some hp
  obtain ⟨hnew, hidle⟩ := h.settled hc
  cases hstate : p.state with
  | new => exact absurd hstate hnew
  | idle => exact absurd hstate hidle
  | running => exact .inl rfl
  | waiting => exact .inr (.inl (.inl rfl))
  | sleeping => exact .inr (.inl (.inr (.inl rfl)))
  | suspended => exact .inr (.inl (.inr (.inr (.inl rfl))))
  | terminated => exact .inr (.inl (.inr (.inr (.inr rfl))))
  | ready =>
    refine .inr (.inr ⟨c, p, hcurrent, hc, hstate, fun j hj => ?_⟩)
    by_contra hne
    obtain ⟨sw, t, hswitch⟩ := dispatch?_ne_none hcurrent (h.current_lt hcurrent) hj hne
    simp [hdispatch] at hswitch

/-! ## Blocking -/

/-- A change of state is accepted if the life cycle allows it. -/
theorem Session.Numbered.setState_eq (h : w.Numbered) (hp : w.scheduler.table[i]? = some p)
    (state : ProcessState) :
    ∃ j, w.scheduler.setState p.pid state =
      if state = .running || !p.state.canBecome state then .error .invalidTransition
      else .ok (w.scheduler.setStateAt j state) := by
  cases hslot : w.scheduler.slot? p.pid with
  | none =>
    have hnot := Array.findIdx?_eq_none_iff.mp hslot p (Array.mem_of_getElem? hp)
    simp at hnot
  | some j =>
    obtain ⟨hj, hpid, -⟩ := Array.findIdx?_eq_some_iff_getElem.mp hslot
    have hsame : w.scheduler.table[j] = p :=
      h.eq_of_pid (mem_processes.mpr (.inl ⟨j, Array.getElem?_eq_getElem hj⟩))
        (mem_processes.mpr (.inl ⟨i, hp⟩)) (by simpa using hpid)
    refine ⟨j, ?_⟩
    simp only [Scheduler.setState, hslot, Array.getElem?_eq_getElem hj, hsame]

/-- Every way to block the process is open. -/
def CanBlock (s : Scheduler) (pid : Pid) : Prop :=
  ∀ state, Blocked state → ∃ t, s.setState pid state = .ok t

/-- The process can be terminated, and no other change of its state is accepted. -/
def Stuck (s : Scheduler) (pid : Pid) : Prop :=
  ∀ state, (∃ t, s.setState pid state = .ok t) ↔ state = .terminated

theorem Session.Numbered.canBlock (h : w.Numbered) (hp : w.scheduler.table[i]? = some p)
    (hrun : p.state = .running) : CanBlock w.scheduler p.pid := by
  intro state hblocked
  obtain ⟨j, hset⟩ := h.setState_eq hp state
  refine ⟨_, hset.trans (if_neg ?_)⟩
  rw [hrun]
  rcases hblocked with rfl | rfl | rfl | rfl <;> decide

theorem Session.Numbered.stuck (h : w.Numbered) (hp : w.scheduler.table[i]? = some p)
    (hready : p.state = .ready) : Stuck w.scheduler p.pid := by
  intro state
  obtain ⟨j, hset⟩ := h.setState_eq hp state
  rw [hset, hready]
  cases state <;> simp [ProcessState.canBecome]

/-! ## Sessions -/

/-- After a chance to switch the current process is running, and can be blocked, or it is blocked
already, or it was ready before and nobody else can run. Then the dispatch changes nothing, and the
process stays ready, so that it cannot be blocked. -/
theorem occupant_after_dispatch {operations : List Operation} {w : Session}
    (hreset : .reset ∉ operations) (hrun : performAll operations .start = .ok w) :
    ∃ switch w', Operation.perform w .dispatch = .ok (switch, w') ∧
      (∀ p, w'.scheduler.currentProcess = some p →
        p.state = .running ∧ CanBlock w'.scheduler p.pid ∨ Blocked p.state ∨ Alone w.scheduler) ∧
      (Alone w.scheduler → switch = none ∧ w' = w ∧
        ∀ p, w'.scheduler.currentProcess = some p →
          p.state = .ready ∧ Stuck w'.scheduler p.pid) := by
  have hnumbered := numbered_of_performAll Session.numbered_start hreset hrun
  have hcoherent : Coherent w.scheduler :=
    performAll_induction (coherent_empty 10) hrun fun _ h hstep => h.step hstep
  cases hdispatch : w.scheduler.dispatch? with
  | none =>
    refine ⟨none, w, by simp only [Operation.perform, hdispatch], fun p hp => ?_, fun halone =>
      ⟨rfl, rfl, fun p hp => ?_⟩⟩
    · obtain ⟨c, -, hc⟩ := currentProcess_eq_some hp
      rcases hcoherent.occupant hdispatch hp with hrunning | hblocked | halone
      · exact .inl ⟨hrunning, hnumbered.canBlock hc hrunning⟩
      · exact .inr (.inl hblocked)
      · exact .inr (.inr halone)
    · obtain ⟨c, q, hcurrent, hq, hready, -⟩ := halone
      obtain ⟨c', hcurrent', hp'⟩ := currentProcess_eq_some hp
      obtain rfl := Option.some.inj (hcurrent'.symm.trans hcurrent)
      obtain rfl := Option.some.inj (hp'.symm.trans hq)
      exact ⟨hready, hnumbered.stuck hq hready⟩
  | some result =>
    obtain ⟨sw, t⟩ := result
    have hperform : Operation.perform w .dispatch = .ok (some sw, { w with scheduler := t }) := by
      simp only [Operation.perform, hdispatch]
    refine ⟨some sw, { w with scheduler := t }, hperform, fun p hp => .inl ?_, fun halone => ?_⟩
    · obtain ⟨-, -, q, -, -, hcurrent, hq, hrunning, -⟩ := hcoherent.handsOver hdispatch
      obtain ⟨c, hcurrent', hp'⟩ := currentProcess_eq_some hp
      obtain rfl := Option.some.inj (hcurrent'.symm.trans hcurrent)
      obtain rfl := Option.some.inj (hp'.symm.trans hq)
      have hnumbered' := Operation.numbered hnumbered (by simp) hperform
      exact ⟨hrunning, hnumbered'.canBlock hp' hrunning⟩
    · simp [halone.dispatch?] at hdispatch

/-- The only process is blocked and woken again. -/
def woken : List Operation :=
  [.adopt true, .enlist 0, .setState 1 .waiting, .setState 1 .ready]

theorem alone_woken : ∃ w p, performAll woken .start = .ok w ∧
    w.scheduler.currentProcess = some p ∧ p.state = .ready ∧ Alone w.scheduler := by
  obtain ⟨w, hrun, hend⟩ : ∃ w, performAll woken .start = .ok w ∧
      some (w.scheduler.current, w.scheduler.table.toList.map (·.state)) =
        some (some 0, [.ready]) := exists_performAll (by decide +kernel)
  obtain ⟨hcurrent, hstates⟩ := Prod.mk.inj (Option.some.inj hend)
  obtain ⟨p, htable, hready⟩ := List.map_eq_singleton_iff.mp hstates
  have hsize : w.scheduler.table.size = 1 := congrArg List.length htable
  have hp : w.scheduler.table[0]? = some p := by
    rw [← Array.getElem?_toList, htable]
    rfl
  refine ⟨w, p, hrun, by rw [currentProcess, hcurrent, Option.bind_some, hp], hready,
    0, p, hcurrent, hp, hready, fun j hj => ?_⟩
  have hlt := lt_of_isRunnableAt hj
  omega

/-- It keeps the processor over the dispatch and is not running, and it cannot wait again. -/
theorem woken_process_stays_ready :
    ∃ w w' p, performAll woken .start = .ok w ∧ Operation.perform w .dispatch = .ok (none, w') ∧
      w'.scheduler.currentProcess = some p ∧ ¬ (p.state = .running ∨ Blocked p.state) ∧
      w'.scheduler.setState p.pid .waiting = .error .invalidTransition := by
  obtain ⟨w, p, hrun, hp, hready, halone⟩ := alone_woken
  obtain ⟨c, -, hc⟩ := currentProcess_eq_some hp
  have hnumbered := numbered_of_performAll Session.numbered_start (by decide) hrun
  obtain ⟨j, hset⟩ := hnumbered.setState_eq hc .waiting
  refine ⟨w, w, p, hrun, by simp only [Operation.perform, halone.dispatch?], hp, ?_, ?_⟩
  · simp [Blocked, hready]
  · simpa [hready, ProcessState.canBecome] using hset

theorem occupant_after_dispatch_of_woken :
    ∃ w p, performAll woken .start = .ok w ∧ Operation.perform w .dispatch = .ok (none, w) ∧
      w.scheduler.currentProcess = some p ∧ p.state = .ready ∧ Stuck w.scheduler p.pid := by
  obtain ⟨w, p, hrun, hp, -, halone⟩ := alone_woken
  obtain ⟨switch, w', hperform, -, hquiet⟩ := occupant_after_dispatch (by decide) hrun
  obtain ⟨rfl, rfl, hcurrent⟩ := hquiet halone
  obtain ⟨hready, hstuck⟩ := hcurrent p hp
  exact ⟨w', p, hrun, hperform, hp, hready, hstuck⟩

end Scheduler

end KernelCore
