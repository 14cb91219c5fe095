import KernelCore.Proofs.Scheduler.Sessions

/-!
# Coherence of the scheduler

In every session the process that runs is the one in the current slot, and there is a current slot
as soon as there is a process. So a switch always has a process that it leaves and another one that
it goes to. Until a reset all processes keep their slots.
-/

namespace KernelCore

namespace Scheduler

variable {s t u : Scheduler} {p q : ProcessDescriptor} {i : ℕ}
  {f : ℕ → ProcessDescriptor → ProcessDescriptor} {operation : Operation} {switch : Option Switch}

/-! ## Processes keep their slots -/

/-- `q` is `p` but for its state and its accounts of time. -/
def SameProcess (p q : ProcessDescriptor) : Prop :=
  ∃ state timeUsed timeSlice,
    q = { p with state, thread := { p.thread with timeUsed, timeSlice } }

theorem SameProcess.refl (p : ProcessDescriptor) : SameProcess p p :=
  ⟨p.state, p.thread.timeUsed, p.thread.timeSlice, rfl⟩

theorem SameProcess.trans {r : ProcessDescriptor} (h₁ : SameProcess p q) (h₂ : SameProcess q r) :
    SameProcess p r := by
  obtain ⟨state₁, timeUsed₁, timeSlice₁, rfl⟩ := h₁
  obtain ⟨state₂, timeUsed₂, timeSlice₂, rfl⟩ := h₂
  exact ⟨state₂, timeUsed₂, timeSlice₂, rfl⟩

/-- Every process of `s` is in the same slot of `t`, with the same pid. -/
def Keeps (s t : Scheduler) : Prop :=
  ∀ (i : ℕ) (p : ProcessDescriptor), s.table[i]? = some p →
    ∃ q, t.table[i]? = some q ∧ q.pid = p.pid ∧ SameProcess p q

theorem Keeps.refl (s : Scheduler) : Keeps s s := by
  intro i p hp
  exact ⟨p, hp, rfl, .refl p⟩

theorem Keeps.trans (h₁ : Keeps s t) (h₂ : Keeps t u) : Keeps s u := by
  intro i p hp
  obtain ⟨q, hq, hpid₁, hsame₁⟩ := h₁ i p hp
  obtain ⟨r, hr, hpid₂, hsame₂⟩ := h₂ i q hq
  exact ⟨r, hr, hpid₂.trans hpid₁, hsame₁.trans hsame₂⟩

theorem Updates.keeps (h : Updates s t f) (hf : ∀ i p, SameProcess p (f i p)) : Keeps s t := by
  intro i p hp
  obtain ⟨state, timeUsed, timeSlice, heq⟩ := hf i p
  exact ⟨f i p, h.of_eq_some hp, by rw [heq], hf i p⟩

theorem sameProcess_switched (previous : Option ℕ) (next i : ℕ) (p : ProcessDescriptor) :
    SameProcess p (switched previous next i p) := by
  unfold switched
  split
  · exact ⟨.running, p.thread.timeUsed, p.thread.timeSlice, rfl⟩
  · split
    · exact ⟨.ready, p.thread.timeUsed, p.thread.timeSlice, rfl⟩
    · exact .refl p

theorem sameProcess_charged (current : Option ℕ) (i : ℕ) (p : ProcessDescriptor) :
    SameProcess p (charged current i p) := by
  unfold charged
  split
  · exact ⟨p.state, _, p.thread.timeSlice, rfl⟩
  · exact .refl p

theorem keeps_dispatch? {sw : Switch} (h : s.dispatch? = some (sw, t)) : Keeps s t := by
  obtain ⟨-, -, -, -, -, -, -, -, -, hupdates⟩ := dispatch?_eq_some h
  exact hupdates.keeps (sameProcess_switched s.current sw.next)

theorem keeps_charge (h : s.charge = .ok t) : Keeps s t := by
  obtain ⟨-, -, -, hupdates⟩ := charge_eq_ok h
  exact hupdates.keeps (sameProcess_charged s.current)

/-- Nothing but a reset takes a process out of its slot. -/
theorem Step.keeps (h : Step s t operation switch) (hreset : operation ≠ .reset) : Keeps s t := by
  cases h with
  | quiet table _ _ => exact (Updates.of_table table).keeps fun _ p => .refl p
  | enlisted space result =>
    intro i p hp
    refine ⟨p, ?_, rfl, .refl p⟩
    have hi := (Array.getElem?_eq_some_iff.mp hp).1
    rw [result, Array.getElem?_push, if_neg (by omega), hp]
  | ticked charge switched =>
    have hcharge : Keeps s _ := fun i p hp => keeps_charge charge i p hp
    rcases switched with ⟨sw, -, hdispatch⟩ | ⟨-, rfl⟩
    · exact hcharge.trans (keeps_dispatch? hdispatch)
    · exact hcharge
  | dispatched switched => exact keeps_dispatch? switched
  | moved set =>
    obtain ⟨i, p, -, -, -, -, rfl⟩ := setState_eq_ok set
    refine (updates_modify s i _).keeps fun j q => ?_
    split
    · exact ⟨_, q.thread.timeUsed, q.thread.timeSlice, rfl⟩
    · exact .refl q
  | retimed set =>
    obtain ⟨-, -, -, hupdates⟩ := setQuantum_eq_ok set
    exact hupdates.keeps fun _ p => ⟨p.state, p.thread.timeUsed, _, rfl⟩
  | reset => exact absurd rfl hreset

/-! ## The current process -/

/-- What holds of a scheduler between two operations. -/
structure Coherent (s : Scheduler) : Prop where
  size_le : s.table.size ≤ 1024
  current_none : s.current = none ↔ s.table.size = 0
  current_lt : ∀ {i : ℕ}, s.current = some i → i < s.table.size
  running : ∀ {i : ℕ} {p : ProcessDescriptor}, s.table[i]? = some p → p.state = .running →
    s.current = some i
  settled : ∀ {i : ℕ} {p : ProcessDescriptor}, s.table[i]? = some p →
    p.state ≠ .new ∧ p.state ≠ .idle
  timeSlice : ∀ {i : ℕ} {p : ProcessDescriptor}, s.table[i]? = some p →
    p.thread.timeSlice = s.quantum * tickPeriod

/-- With a process in the table there is a current one. -/
theorem Coherent.exists_current (h : Coherent s) (hp : s.table[i]? = some p) :
    ∃ k q, s.current = some k ∧ s.table[k]? = some q := by
  have hi := (Array.getElem?_eq_some_iff.mp hp).1
  cases hcurrent : s.current with
  | none =>
    have hzero := h.current_none.mp hcurrent
    omega
  | some k =>
    have hk := h.current_lt hcurrent
    exact ⟨k, s.table[k], rfl, Array.getElem?_eq_getElem hk⟩

/-- Entries may change where they are, as long as none starts to run outside the current slot. -/
theorem Coherent.updates (h : Coherent s) (hupdates : Updates s t f)
    (hcurrent : t.current = s.current ∨ ∃ k < s.table.size, t.current = some k)
    (hrunning : ∀ i p, s.table[i]? = some p → (f i p).state = .running → t.current = some i)
    (hsettled : ∀ i p, s.table[i]? = some p → (f i p).state ≠ .new ∧ (f i p).state ≠ .idle)
    (hslice : ∀ i p, s.table[i]? = some p → (f i p).thread.timeSlice = t.quantum * tickPeriod) :
    Coherent t := by
  have hsize := hupdates.size
  constructor
  · rw [hsize]; exact h.size_le
  · rw [hsize]
    rcases hcurrent with hsame | ⟨k, hk, hnew⟩
    · rw [hsame]; exact h.current_none
    · rw [hnew]
      exact ⟨nofun, fun hzero => by omega⟩
  · intro i hi
    rw [hsize]
    rcases hcurrent with hsame | ⟨k, hk, hnew⟩
    · exact h.current_lt (hsame.symm.trans hi)
    · rw [hnew] at hi
      rwa [← Option.some.inj hi]
  · intro i q hq hrun
    obtain ⟨p, hp, rfl⟩ := hupdates.eq_some hq
    exact hrunning i p hp hrun
  · intro i q hq
    obtain ⟨p, hp, rfl⟩ := hupdates.eq_some hq
    exact hsettled i p hp
  · intro i q hq
    obtain ⟨p, hp, rfl⟩ := hupdates.eq_some hq
    exact hslice i p hp

theorem coherent_empty (quantum : ℕ) : Coherent { empty with quantum } := by
  constructor <;> simp [empty]

/-- The count of ticks does not matter. -/
theorem Coherent.ticks (h : Coherent s) (ticks : ℕ) : Coherent { s with ticks } :=
  ⟨h.size_le, h.current_none, h.current_lt, h.running, h.settled, h.timeSlice⟩

theorem Coherent.charge (h : Coherent s) (hcharge : s.charge = .ok t) : Coherent t := by
  obtain ⟨hcurrent, hquantum, -, hupdates⟩ := charge_eq_ok hcharge
  have hstate : ∀ i p, (charged s.current i p).state = p.state ∧
      (charged s.current i p).thread.timeSlice = p.thread.timeSlice := by
    intro i p
    unfold charged
    split <;> exact ⟨rfl, rfl⟩
  refine h.updates hupdates (.inl hcurrent) ?_ ?_ ?_
  · intro i p hp hrun
    rw [(hstate i p).1] at hrun
    rw [hcurrent]
    exact h.running hp hrun
  · intro i p hp
    rw [(hstate i p).1]
    exact h.settled hp
  · intro i p hp
    rw [(hstate i p).2, hquantum]
    exact h.timeSlice hp

theorem switched_state (previous : Option ℕ) (next i : ℕ) (p : ProcessDescriptor) :
    (switched previous next i p).state = .running ∧ i = next ∨
      (switched previous next i p).state = .ready ∧ previous = some i ∧ p.state = .running ∨
      (switched previous next i p).state = p.state ∧
        ¬ (previous = some i ∧ p.state = .running) := by
  unfold switched
  split
  · rename_i hi
    exact .inl ⟨rfl, hi⟩
  · split
    · rename_i hwas
      exact .inr (.inl ⟨rfl, hwas⟩)
    · rename_i hwas
      exact .inr (.inr ⟨rfl, hwas⟩)

theorem Coherent.dispatch? (h : Coherent s) {sw : Switch} (hdispatch : s.dispatch? = some (sw, t)) :
    Coherent t := by
  obtain ⟨p, hp, -, -, -, -, -, hcurrent, hquantum, hupdates⟩ := dispatch?_eq_some hdispatch
  have hnext := (Array.getElem?_eq_some_iff.mp hp).1
  refine h.updates hupdates (.inr ⟨sw.next, hnext, hcurrent⟩) ?_ ?_ ?_
  · intro i q hq hrun
    rcases switched_state s.current sw.next i q with ⟨-, rfl⟩ | ⟨hready, -⟩ | ⟨hsame, hwas⟩
    · exact hcurrent
    · simp [hready] at hrun
    · -- a process that ran was in the slot that is left
      rw [hsame] at hrun
      exact absurd ⟨h.running hq hrun, hrun⟩ hwas
  · intro i q hq
    rcases switched_state s.current sw.next i q with ⟨hrun, -⟩ | ⟨hready, -⟩ | ⟨hsame, -⟩
    · simp [hrun]
    · simp [hready]
    · rw [hsame]; exact h.settled hq
  · intro i q hq
    have hslice : (switched s.current sw.next i q).thread.timeSlice = q.thread.timeSlice := by
      unfold switched
      split
      · rfl
      · split <;> rfl
    rw [hslice, hquantum]
    exact h.timeSlice hq

theorem Coherent.enlisted (h : Coherent s) (p : ProcessDescriptor)
    (hspace : s.table.size < capacity) (hresult : t = { s with
      table := s.table.push (s.enlisted p)
      current := if s.current.isNone then some s.table.size else s.current }) : Coherent t := by
  have hentry : ∀ {i q}, t.table[i]? = some q →
      i = s.table.size ∧ q = s.enlisted p ∨ s.table[i]? = some q := by
    intro i q hq
    rw [hresult, Array.getElem?_push] at hq
    split at hq
    · exact .inl ⟨‹_›, (Option.some.inj hq).symm⟩
    · exact .inr hq
  have hsize : t.table.size = s.table.size + 1 := by rw [hresult, Array.size_push]
  have hcurrent : t.current = some s.table.size ∧ s.current = none ∨
      t.current = s.current ∧ s.current ≠ none := by
    rw [hresult]
    cases s.current with
    | none => exact .inl ⟨rfl, rfl⟩
    | some k => exact .inr ⟨rfl, nofun⟩
  constructor
  · rw [hsize]; exact hspace
  · rcases hcurrent with ⟨hnew, -⟩ | ⟨hsame, hsome⟩
    · simp [hnew, hsize]
    · simp [hsame, hsome, hsize]
  · intro i hi
    rcases hcurrent with ⟨hnew, -⟩ | ⟨hsame, -⟩
    · rw [hnew] at hi
      obtain rfl := Option.some.inj hi
      omega
    · have := h.current_lt (hsame.symm.trans hi)
      omega
  · intro i q hq hrun
    rcases hentry hq with ⟨rfl, rfl⟩ | hold
    · rcases hcurrent with ⟨hnew, -⟩ | ⟨-, hsome⟩
      · exact hnew
      · simp [Scheduler.enlisted, hsome] at hrun
    · have hold' := h.running hold hrun
      rcases hcurrent with ⟨-, hnone⟩ | ⟨hsame, -⟩
      · simp [hnone] at hold'
      · rw [hsame, hold']
  · intro i q hq
    rcases hentry hq with ⟨-, rfl⟩ | hold
    · unfold Scheduler.enlisted
      split <;> simp
    · exact h.settled hold
  · intro i q hq
    have hquantum : t.quantum = s.quantum := by rw [hresult]
    rw [hquantum]
    rcases hentry hq with ⟨-, rfl⟩ | hold
    · rfl
    · exact h.timeSlice hold

theorem ne_new_of_canBecome {state state' : ProcessState} (h : state.canBecome state' = true) :
    state' ≠ .new ∧ state' ≠ .idle := by
  revert h
  cases state <;> cases state' <;> decide

theorem Coherent.setState (h : Coherent s) {pid : Pid} {state : ProcessState}
    (hset : s.setState pid state = .ok t) : Coherent t := by
  obtain ⟨i, p, -, hp, hstate, hallowed, rfl⟩ := setState_eq_ok hset
  refine h.updates (updates_modify s i _) (.inl rfl) ?_ ?_ ?_
  · intro j q hq hrun
    by_cases hij : i = j
    · rw [if_pos hij] at hrun
      exact absurd hrun hstate
    · rw [if_neg hij] at hrun
      exact h.running hq hrun
  · intro j q hq
    by_cases hij : i = j
    · rw [if_pos hij]
      exact ne_new_of_canBecome hallowed
    · rw [if_neg hij]
      exact h.settled hq
  · intro j q hq
    have hslice := h.timeSlice hq
    split <;> exact hslice

theorem Coherent.setQuantum (h : Coherent s) {ticks : ℕ} (hset : s.setQuantum ticks = .ok t) :
    Coherent t := by
  obtain ⟨-, hcurrent, hquantum, hupdates⟩ := setQuantum_eq_ok hset
  refine h.updates hupdates (.inl hcurrent) ?_ ?_ ?_
  · intro i p hp hrun
    rw [hcurrent]
    exact h.running hp hrun
  · intro i p hp
    have hsettled := h.settled hp
    exact hsettled
  · intro i p _
    rw [hquantum]

theorem Coherent.step (h : Coherent s) (hstep : Step s t operation switch) : Coherent t := by
  cases hstep with
  | quiet table current quantum =>
    refine h.updates (.of_table table) (.inl current) ?_ ?_ ?_
    · intro i p hp hrun
      rw [current]
      exact h.running hp hrun
    · intro i p hp
      exact h.settled hp
    · intro i p hp
      rw [quantum]
      exact h.timeSlice hp
  | enlisted space result => exact h.enlisted _ space result
  | ticked charge switched =>
    have hu := (h.ticks (s.ticks + 1)).charge charge
    rcases switched with ⟨sw, -, hdispatch⟩ | ⟨-, rfl⟩
    · exact hu.dispatch? hdispatch
    · exact hu
  | dispatched switched => exact h.dispatch? switched
  | moved set => exact h.setState set
  | retimed set => exact h.setQuantum set
  | reset result => rw [result]; exact coherent_empty s.quantum

/-! ## Switches -/

/-- A switch leaves the process that was current for one in another slot, which runs now. -/
def HandsOver (s t : Scheduler) (sw : Switch) : Prop :=
  ∃ i p q, s.current = some i ∧ s.table[i]? = some p ∧ t.current = some sw.next ∧
    t.table[sw.next]? = some q ∧ q.state = .running ∧ sw.previous = some i ∧
    sw.previousPid = some p.pid ∧ sw.nextPid = q.pid ∧ sw.next ≠ i

theorem Coherent.handsOver (h : Coherent s) {sw : Switch} (hdispatch : s.dispatch? = some (sw, t)) :
    HandsOver s t sw := by
  obtain ⟨q, hq, -, hother, hprevious, hpreviousPid, hnextPid, hcurrent, -, hupdates⟩ :=
    dispatch?_eq_some hdispatch
  obtain ⟨i, p, hi, hp⟩ := h.exists_current hq
  refine ⟨i, p, _, hi, hp, hcurrent, hupdates.of_eq_some hq, ?_, hprevious.trans hi, ?_, ?_, ?_⟩
  · simp [switched]
  · have hprocess : s.currentProcess = some p := by rw [currentProcess, hi, Option.bind_some, hp]
    rw [hpreviousPid, currentPid, hprocess, Option.map_some]
  · simp [switched, hnextPid]
  · rintro rfl
    exact hother hi

theorem Step.handsOver (h : Coherent s) {sw : Switch} (hstep : Step s t operation (some sw)) :
    HandsOver s t sw := by
  cases hstep with
  | ticked charge switched =>
    rcases switched with ⟨sw', hsw, hdispatch⟩ | ⟨hnone, -⟩
    · obtain rfl := Option.some.inj hsw
      have hu := (h.ticks (s.ticks + 1)).charge charge
      obtain ⟨hcurrent, -, -, hupdates⟩ := charge_eq_ok charge
      obtain ⟨i, p, q, hi, hp, hrest⟩ := hu.handsOver hdispatch
      obtain ⟨p', hp', rfl⟩ := hupdates.eq_some hp
      obtain ⟨_, _, _, hsame⟩ := sameProcess_charged s.current i p'
      have hpid : (charged s.current i p').pid = p'.pid := by rw [hsame]
      exact ⟨i, p', q, hcurrent.symm.trans hi, hp', hpid ▸ hrest⟩
    · contradiction
  | dispatched switched => exact h.handsOver switched

/-! ## Sessions -/

/-- What the operations keep holds at the end of a session. -/
theorem performAll_induction {J : Scheduler → Prop} {operations : List Operation} {w w' : Session}
    (hstart : J w.scheduler) (hrun : performAll operations w = .ok w')
    (hstep : ∀ {s t operation switch}, operation ∈ operations → J s →
      Step s t operation switch → J t) : J w'.scheduler := by
  induction operations generalizing w with
  | nil =>
    obtain rfl := Except.ok.inj hrun
    exact hstart
  | cons operation rest ih =>
    rw [performAll] at hrun
    split at hrun
    · contradiction
    · rename_i switch w'' hperform
      exact ih (hstep List.mem_cons_self hstart (Operation.step hperform)) hrun
        fun hmem => hstep (List.mem_cons_of_mem _ hmem)

/-- In every session the scheduler is coherent; until the next reset no process leaves its slot or
changes its pid; and every switch hands over from the current process to another one. -/
theorem coherent_of_session {operations : List Operation} {w : Session}
    (hrun : performAll operations .start = .ok w) :
    Coherent w.scheduler ∧
      (∀ later w', Operation.reset ∉ later → performAll later w = .ok w' →
        Keeps w.scheduler w'.scheduler) ∧
      ∀ (operation : Operation) sw w', operation.perform w = .ok (some sw, w') →
        HandsOver w.scheduler w'.scheduler sw := by
  have hcoherent : Coherent w.scheduler :=
    performAll_induction (coherent_empty 10) hrun fun _ h hstep => h.step hstep
  refine ⟨hcoherent, fun later w' hreset hlater => ?_, fun operation sw w' hperform => ?_⟩
  · refine performAll_induction (J := Keeps w.scheduler) (.refl _) hlater fun hmem h hstep => ?_
    refine h.trans (hstep.keeps ?_)
    rintro rfl
    exact hreset hmem
  · exact (Operation.step hperform).handsOver hcoherent

/-- Two processes are registered, and the processor goes from the first one to the second one. -/
theorem coherent_of_session_of_two_processes :
    ∃ w sw w', performAll [.adopt true, .adopt true, .enlist 0, .enlist 0] .start = .ok w ∧
      Operation.perform w .dispatch = .ok (some sw, w') ∧ Coherent w.scheduler ∧
      HandsOver w.scheduler w'.scheduler sw := by
  obtain ⟨w, sw, w', hrun, hperform⟩ : ∃ w sw w',
      performAll [.adopt true, .adopt true, .enlist 0, .enlist 0] .start = .ok w ∧
        Operation.perform w .dispatch = .ok (some sw, w') := ⟨_, _, _, rfl, rfl⟩
  obtain ⟨hcoherent, -, hswitch⟩ := coherent_of_session hrun
  exact ⟨w, sw, w', hrun, hperform, hcoherent, hswitch _ sw w' hperform⟩

end Scheduler

end KernelCore
