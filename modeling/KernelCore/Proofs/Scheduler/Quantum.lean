import KernelCore.Proofs.Scheduler.ProcessorTime
import KernelCore.Proofs.Scheduler.Waiting

/-!
# The quantum of a dispatched process

A quantum ends where the count of all ticks is a multiple of it, whoever has the processor then. So
a process that a tick dispatches gets a whole quantum, and one that is dispatched in between gets
what is left of the running one.
-/

namespace KernelCore

namespace Scheduler

variable {s t : Scheduler} {p q : ProcessDescriptor} {i n : ℕ} {w w' w₁ w₂ w₃ : Session}
  {operation : Operation} {switch : Option Switch} {operations : List Operation} {sw sw' : Switch}

/-! ## Counts -/

/-- The operation neither drops the processes nor changes the quantum. -/
def Operation.Steady : Operation → Prop
  | .reset | .setQuantum _ => False
  | .create _ _ | .adopt _ | .enlist _ | .tick | .dispatch | .setState _ _ => True

theorem Operation.Steady.ne_reset (h : operation.Steady) : operation ≠ .reset := by
  rintro rfl
  exact h

/-- The count of ticks, and the quantum that it is compared with. -/
structure Counts (s t : Scheduler) (ticks : ℕ) : Prop where
  ticks : t.ticks = s.ticks + ticks
  quantum : t.quantum = s.quantum

theorem Counts.refl (s : Scheduler) : Counts s s 0 := ⟨rfl, rfl⟩

theorem counts_of_tick (h : s.tick = .ok (switch, t)) : Counts s t 1 := by
  obtain ⟨u, hcharge, hcases⟩ := tick_eq_ok h
  obtain ⟨-, hquantum, hticks, -⟩ := charge_eq_ok hcharge
  rcases hcases with ⟨sw, -, -, hdispatch⟩ | ⟨-, rfl, -⟩
  · obtain ⟨-, -, -, -, -, -, -, -, hquantum', -⟩ := dispatch?_eq_some hdispatch
    exact ⟨(counts_of_dispatch? hdispatch).2.trans hticks, hquantum'.trans hquantum⟩
  · exact ⟨hticks, hquantum⟩

/-- Only ticks are counted. -/
theorem Operation.counts (h : operation.perform w = .ok (switch, w')) (hsteady : operation.Steady) :
    Counts w.scheduler w'.scheduler (if operation = .tick then 1 else 0) := by
  cases operation.effect h with
  | failed tick =>
    rw [if_neg tick]
    exact .refl _
  | made makes =>
    have htick : operation ≠ .tick := by
      rintro rfl
      exact makes.elim
    rw [if_neg htick]
    exact ⟨rfl, rfl⟩
  | dropped => exact .refl _
  | enlisted _ enlist =>
    obtain ⟨-, -, rfl⟩ := enlist_eq_ok enlist
    exact ⟨rfl, rfl⟩
  | ticked tick => exact counts_of_tick tick
  | dispatched dispatch =>
    obtain ⟨-, -, -, -, -, -, -, -, hquantum, -⟩ := dispatch?_eq_some dispatch
    exact ⟨(counts_of_dispatch? dispatch).2, hquantum⟩
  | moved set =>
    obtain ⟨i, -, -, -, -, -, rfl⟩ := setState_eq_ok set
    exact ⟨rfl, rfl⟩
  | retimed => exact hsteady.elim
  | reset => exact hsteady.elim

/-! ## Keeping the processor -/

/-- The process in slot `i` is running. -/
def RunsAt (s : Scheduler) (i : ℕ) : Prop := ∃ p, s.table[i]? = some p ∧ p.state = .running

instance : Decidable (RunsAt s i) :=
  decidable_of_iff (s.table[i]?.any (·.state = .running) = true) (by
    simp [RunsAt, Option.any_eq_true])

theorem Coherent.current_eq (h : Coherent s) (hruns : RunsAt s i) : s.current = some i := by
  obtain ⟨p, hp, hrun⟩ := hruns
  exact h.running hp hrun

/-- Operations before and after each of which the process in slot `i` is running, with the number of
ticks among them. The quantum stays. -/
inductive Holds (i : ℕ) : Session → ℕ → Session → Prop
  | start {w : Session} (runs : RunsAt w.scheduler i) : Holds i w 0 w
  | next {operation : Operation} {switch : Option Switch} {w w' w'' : Session} {n : ℕ}
      (runs : RunsAt w.scheduler i) (steady : operation.Steady)
      (done : operation.perform w = .ok (switch, w')) (rest : Holds i w' n w'') :
      Holds i w ((if operation = .tick then 1 else 0) + n) w''

theorem Holds.runs (h : Holds i w n w') : RunsAt w.scheduler i := by
  cases h <;> assumption

theorem Holds.runs_end (h : Holds i w n w') : RunsAt w'.scheduler i := by
  induction h with
  | start runs => exact runs
  | next _ _ _ _ ih => exact ih

theorem Holds.coherent (h : Holds i w n w') (hw : Coherent w.scheduler) :
    Coherent w'.scheduler := by
  induction h with
  | start => exact hw
  | next _ _ done _ ih => exact ih (hw.step (Operation.step done))

theorem Holds.counts (h : Holds i w n w') : Counts w.scheduler w'.scheduler n := by
  induction h with
  | start => exact .refl _
  | next _ steady done _ ih =>
    have hstep := Operation.counts done steady
    exact ⟨by rw [ih.ticks, hstep.ticks, Nat.add_assoc], ih.quantum.trans hstep.quantum⟩

/-- The process in slot `i` is charged for `n` ticks. -/
def ChargedFor (s t : Scheduler) (i n : ℕ) : Prop :=
  ∃ p q, s.table[i]? = some p ∧ t.table[i]? = some q ∧ SameProcess p q ∧
    q.thread.timeUsed = p.thread.timeUsed + n * tickPeriod

theorem ChargedFor.trans {u : Scheduler} {m : ℕ} (h₁ : ChargedFor s t i m)
    (h₂ : ChargedFor t u i n) : ChargedFor s u i (m + n) := by
  obtain ⟨p, q, hp, hq, hsame₁, htime₁⟩ := h₁
  obtain ⟨q', r, hq', hr, hsame₂, htime₂⟩ := h₂
  obtain rfl := Option.some.inj (hq.symm.trans hq')
  exact ⟨p, r, hp, hr, hsame₁.trans hsame₂, by rw [htime₂, htime₁, Nat.add_mul, Nat.add_assoc]⟩

/-- The current process is charged for every tick. -/
theorem Operation.chargedFor (h : operation.perform w = .ok (switch, w'))
    (hreset : operation ≠ .reset) (hw : Coherent w.scheduler) (hi : w.scheduler.current = some i) :
    ChargedFor w.scheduler w'.scheduler i (if operation = .tick then 1 else 0) := by
  have hlt := hw.current_lt hi
  obtain ⟨q, hq, -, hsame⟩ := (operation.step h).keeps hreset i _ (Array.getElem?_eq_getElem hlt)
  refine ⟨_, q, Array.getElem?_eq_getElem hlt, hq, hsame, ?_⟩
  rcases operation.timeUsed h hreset hq with ⟨p, hp, htime⟩ | ⟨rfl, -⟩
  · rw [Array.getElem?_eq_getElem hlt] at hp
    rw [htime, ← Option.some.inj hp, share, if_pos hi]
    split <;> simp
  · exact absurd hlt (Nat.lt_irrefl _)

theorem Holds.chargedFor (h : Holds i w n w') (hw : Coherent w.scheduler) :
    ChargedFor w.scheduler w'.scheduler i n := by
  induction h with
  | start runs =>
    obtain ⟨p, hp, -⟩ := runs
    exact ⟨p, p, hp, hp, .refl p, by simp⟩
  | next runs steady done _ ih =>
    have hstep := Operation.chargedFor done steady.ne_reset hw (hw.current_eq runs)
    exact hstep.trans (ih (hw.step (Operation.step done)))

/-! ## The end of a quantum -/

/-- A tick switches only where its number is a multiple of the quantum. -/
theorem dvd_of_tick (h : s.tick = .ok (some sw, t)) : t.quantum ∣ t.ticks := by
  have hcounts := counts_of_tick h
  obtain ⟨u, hcharge, hcases⟩ := tick_eq_ok h
  obtain ⟨-, hquantum, hticks, -⟩ := charge_eq_ok hcharge
  rcases hcases with ⟨sw', -, hdue, -⟩ | ⟨hnone, -⟩
  · rw [hcounts.ticks, hcounts.quantum]
    rw [hquantum, hticks] at hdue
    exact Nat.dvd_of_mod_eq_zero hdue
  · contradiction

theorem dvd_of_perform_tick (h : Operation.perform w .tick = .ok (some sw, w')) :
    w'.scheduler.quantum ∣ w'.scheduler.ticks := by
  obtain ⟨⟨switch', t⟩, htick, hw⟩ := map_eq_ok h
  obtain ⟨rfl, rfl⟩ := Prod.mk.inj hw
  exact dvd_of_tick htick

/-- From `a` on it takes what is left of the period, at least, to the next multiple. -/
theorem sub_mod_le_of_dvd {a b : ℕ} (hdvd : n ∣ a + b) (hb : 0 < b) : n - a % n ≤ b := by
  rcases Nat.eq_zero_or_pos n with rfl | hn
  · simp
  have hlt := Nat.mod_lt a hn
  have hrest : n ∣ a % n + b := by
    have hsum : a + b = n * (a / n) + (a % n + b) := by
      rw [← Nat.add_assoc, Nat.div_add_mod]
    rw [hsum] at hdvd
    exact (Nat.dvd_add_right (Nat.dvd_mul_right _ _)).mp hdvd
  have hle := Nat.le_of_dvd (by omega) hrest
  omega

/-- As long as a process runs that a switch dispatched, no tick takes the processor away from it
before the rest of the quantum is charged to it that was running at the switch. If a tick
dispatched it, that is a whole quantum. -/
theorem quantum_after_dispatch (hrun : performAll operations .start = .ok w)
    (hdispatch : operation.perform w = .ok (some sw, w₁)) (hholds : Holds sw.next w₁ n w₂)
    (htick : Operation.perform w₂ .tick = .ok (some sw', w₃)) :
    sw'.previous = some sw.next ∧ ChargedFor w₁.scheduler w₃.scheduler sw.next (n + 1) ∧
      w₁.scheduler.quantum - w₁.scheduler.ticks % w₁.scheduler.quantum ≤ n + 1 ∧
      (operation = .tick → w₁.scheduler.quantum ≤ n + 1) := by
  have hcoherent : Coherent w.scheduler :=
    performAll_induction (coherent_empty 10) hrun fun _ h hstep => h.step hstep
  have h₁ := hcoherent.step (Operation.step hdispatch)
  have h₂ := hholds.coherent h₁
  have hcurrent := h₂.current_eq hholds.runs_end
  obtain ⟨i, -, -, hi, -, -, -, -, hprevious, -⟩ := (Operation.step htick).handsOver h₂
  obtain rfl := Option.some.inj (hcurrent.symm.trans hi)
  have hcharged := Operation.chargedFor htick nofun h₂ hcurrent
  have hcounts := hholds.counts
  have hlast : Counts w₂.scheduler w₃.scheduler 1 := Operation.counts htick trivial
  have hdvd := dvd_of_perform_tick htick
  rw [hlast.ticks, hlast.quantum, hcounts.ticks, hcounts.quantum, Nat.add_assoc] at hdvd
  have hleft := sub_mod_le_of_dvd hdvd n.succ_pos
  refine ⟨hprevious, (hholds.chargedFor h₁).trans hcharged, hleft, ?_⟩
  rintro rfl
  rwa [Nat.mod_eq_zero_of_dvd (dvd_of_perform_tick hdispatch), Nat.sub_zero] at hleft

/-- Evaluates one operation and what is looked up behind it. -/
theorem Operation.exists_perform {α : Type} {f : Option Switch × Session → Option α} {a : α}
    (h : (operation.perform w).toOption.bind f = some a) :
    ∃ switch w', operation.perform w = .ok (switch, w') ∧ f (switch, w') = some a := by
  cases hperform : operation.perform w with
  | error stop => simp [hperform, Except.toOption] at h
  | ok r => exact ⟨r.1, r.2, rfl, by simpa [hperform, Except.toOption] using h⟩

/-- Two processes, with a quantum of two ticks, one of which has gone by. -/
def alternating : List Operation :=
  [.setQuantum 2, .tick, .adopt true, .adopt true, .enlist 0, .enlist 0]

/-- The next tick dispatches the second process, which runs for the two ticks after that. -/
theorem quantum_after_dispatch_of_alternating :
    ∃ w w₁ w₂ w₃ sw sw', performAll alternating .start = .ok w ∧
      Operation.perform w .tick = .ok (some sw, w₁) ∧ sw.next = 1 ∧ Holds sw.next w₁ 1 w₂ ∧
      Operation.perform w₂ .tick = .ok (some sw', w₃) ∧ sw'.previous = some sw.next ∧
      ChargedFor w₁.scheduler w₃.scheduler sw.next 2 ∧ w₁.scheduler.quantum ≤ 2 := by
  obtain ⟨w, hrun, h⟩ : ∃ w, performAll alternating .start = .ok w ∧
      ((Operation.perform w .tick).toOption.bind fun (first, w₁) =>
        (Operation.perform w₁ .tick).toOption.bind fun (_, w₂) =>
        (Operation.perform w₂ .tick).toOption.bind fun (last, _) =>
        some (first.map (·.next), decide (RunsAt w₁.scheduler 1), decide (RunsAt w₂.scheduler 1),
          last.isSome)) = some (some 1, true, true, true) := exists_performAll (by decide +kernel)
  obtain ⟨first, w₁, hfirst, h⟩ := Operation.exists_perform h
  obtain ⟨second, w₂, hsecond, h⟩ := Operation.exists_perform h
  obtain ⟨last, w₃, hlast, h⟩ := Operation.exists_perform h
  simp only [Option.some.injEq, Prod.mk.injEq, decide_eq_true_eq, Option.map_eq_some_iff,
    Option.isSome_iff_exists] at h
  obtain ⟨⟨sw, rfl, hnext⟩, hruns₁, hruns₂, ⟨sw', rfl⟩⟩ := h
  have hholds : Holds sw.next w₁ 1 w₂ := by
    rw [hnext]
    exact .next hruns₁ (show Operation.tick.Steady from trivial) hsecond (.start hruns₂)
  obtain ⟨hprevious, hcharged, -, hquantum⟩ := quantum_after_dispatch hrun hfirst hholds hlast
  exact ⟨w, w₁, w₂, w₃, sw, sw', hrun, hfirst, hnext, hholds, hlast, hprevious, hcharged,
    hquantum rfl⟩

/-- Nine ticks of a quantum of ten go by before there is anybody to run. -/
def lateStart : List Operation :=
  List.replicate 9 .tick ++ [.adopt true, .adopt true, .enlist 0, .enlist 0]

/-- The first process gives the processor to the second one, which loses it at the next tick. -/
theorem quantum_cut_short_of_lateStart :
    ∃ w w₁ w₂ sw sw', performAll lateStart .start = .ok w ∧
      Operation.perform w .dispatch = .ok (some sw, w₁) ∧ RunsAt w₁.scheduler sw.next ∧
      Operation.perform w₁ .tick = .ok (some sw', w₂) ∧ sw'.previous = some sw.next ∧
      ChargedFor w₁.scheduler w₂.scheduler sw.next 1 ∧ w₁.scheduler.quantum = 10 ∧
      w₂.scheduler.quantum = 10 := by
  obtain ⟨w, hrun, h⟩ : ∃ w, performAll lateStart .start = .ok w ∧
      ((Operation.perform w .dispatch).toOption.bind fun (first, w₁) =>
        (Operation.perform w₁ .tick).toOption.bind fun (last, w₂) =>
        some (first.map (·.next), decide (RunsAt w₁.scheduler 1), last.map (·.previous),
          w₁.scheduler.quantum, w₂.scheduler.quantum)) =
        some (some 1, true, some (some 1), 10, 10) := exists_performAll (by decide +kernel)
  obtain ⟨first, w₁, hfirst, h⟩ := Operation.exists_perform h
  obtain ⟨last, w₂, hlast, h⟩ := Operation.exists_perform h
  simp only [Option.some.injEq, Prod.mk.injEq, decide_eq_true_eq, Option.map_eq_some_iff] at h
  obtain ⟨⟨sw, rfl, hnext⟩, hruns, ⟨sw', rfl, hprevious⟩, hquantum₁, hquantum₂⟩ := h
  have hcoherent : Coherent w₁.scheduler :=
    (performAll_induction (coherent_empty 10) hrun fun _ h hstep => h.step hstep).step
      (Operation.step hfirst)
  rw [← hnext] at hruns hprevious
  have hcharged := Operation.chargedFor hlast nofun hcoherent (hcoherent.current_eq hruns)
  exact ⟨w, w₁, w₂, sw, sw', hrun, hfirst, hruns, hlast, hprevious, hcharged, hquantum₁, hquantum₂⟩

end Scheduler

end KernelCore
