import KernelCore.Proofs.Scheduler.Operations

/-!
# Sessions of the scheduler

Processes are made, registered, dispatched and moved along their life cycle, in any order. `Effect`
lists what an operation can do to the session, and `Step` what that comes to for the scheduler. An
invariant of sessions is looked at once for each of the cases.
-/

namespace KernelCore

namespace Scheduler

/-- A scheduler, and the descriptors that were made and are not registered. -/
structure Session where
  scheduler : Scheduler
  pending : List ProcessDescriptor

namespace Session

def start : Session := ⟨empty, []⟩

/-- Takes the outcome of making a descriptor. -/
def keep (w : Session) (r : Except Panic (Except SchedulerError (ProcessDescriptor × Scheduler))) :
    Except Panic Session :=
  match r with
  | .error stop => .error stop
  | .ok (.error _) => .ok w
  | .ok (.ok (p, s)) => .ok ⟨s, w.pending ++ [p]⟩

end Session

inductive Operation
  | create (plan : ProcessPlan) (memory : Bool)
  | adopt (memory : Bool)
  /-- Registers the pending descriptor of a number, and drops it if that fails. -/
  | enlist (k : ℕ)
  | tick
  | dispatch
  | setState (pid : Pid) (state : ProcessState)
  | setQuantum (ticks : ℕ)
  | reset
deriving DecidableEq

/-- Carries an operation out. An operation that fails changes nothing else. -/
def Operation.perform (w : Session) : Operation → Except Panic (Option Switch × Session)
  | .create plan memory =>
    match plan.stackTop? with
    | none => .ok (none, w)
    | some top => (w.keep (w.scheduler.newProcess plan top memory)).map (none, ·)
  | .adopt memory => (w.keep (w.scheduler.adopt memory)).map (none, ·)
  | .enlist k =>
    match w.pending[k]? with
    | none => .ok (none, w)
    | some p =>
      match w.scheduler.enlist p with
      | .error _ => .ok (none, ⟨w.scheduler, w.pending.eraseIdx k⟩)
      | .ok (_, s) => .ok (none, ⟨s, w.pending.eraseIdx k⟩)
  | .tick => w.scheduler.tick.map fun (switch, s) => (switch, { w with scheduler := s })
  | .dispatch =>
    match w.scheduler.dispatch? with
    | none => .ok (none, w)
    | some (switch, s) => .ok (some switch, { w with scheduler := s })
  | .setState pid state =>
    match w.scheduler.setState pid state with
    | .error _ => .ok (none, w)
    | .ok s => .ok (none, { w with scheduler := s })
  | .setQuantum ticks =>
    match w.scheduler.setQuantum ticks with
    | .error _ => .ok (none, w)
    | .ok s => .ok (none, { w with scheduler := s })
  | .reset => .ok (none, { w with scheduler := w.scheduler.reset })

/-- Carries operations out one after the other. -/
def performAll : List Operation → Session → Except Panic Session
  | [], w => .ok w
  | operation :: rest, w =>
    match operation.perform w with
    | .error stop => .error stop
    | .ok (_, w') => performAll rest w'

/-- A record that is kept beside the session, with a note of every operation. -/
def chronicle {α : Type} (note : α → Session → Operation → Session → α) :
    α → List Operation → Session → α
  | a, [], _ => a
  | a, operation :: rest, w =>
    match operation.perform w with
    | .error _ => a
    | .ok (_, w') => chronicle note (note a w operation w') rest w'

variable {s t : Scheduler}

/-- What an operation does to the scheduler, with the switch that it decides on. -/
inductive Step (s t : Scheduler) : Operation → Option Switch → Prop
  /-- The table, the current slot and the quantum are the same. -/
  | quiet {operation : Operation} (table : t.table = s.table) (current : t.current = s.current)
      (quantum : t.quantum = s.quantum) : Step s t operation none
  | enlisted {k : ℕ} {p : ProcessDescriptor} (space : s.table.size < capacity)
      (result : t = { s with
        table := s.table.push (s.enlisted p)
        current := if s.current.isNone then some s.table.size else s.current }) :
      Step s t (.enlist k) none
  | ticked {u : Scheduler} {switch : Option Switch}
      (charge : ({ s with ticks := s.ticks + 1 } : Scheduler).charge = .ok u)
      (switched : (∃ sw, switch = some sw ∧ u.dispatch? = some (sw, t)) ∨ switch = none ∧ t = u) :
      Step s t .tick switch
  | dispatched {sw : Switch} (switched : s.dispatch? = some (sw, t)) : Step s t .dispatch (some sw)
  | moved {pid : Pid} {state : ProcessState} (set : s.setState pid state = .ok t) :
      Step s t (.setState pid state) none
  | retimed {ticks : ℕ} (set : s.setQuantum ticks = .ok t) : Step s t (.setQuantum ticks) none
  | reset (result : t = s.reset) : Step s t .reset none

/-- The operations that make a process. -/
def Operation.Makes : Operation → Prop
  | .create _ _ | .adopt _ => True
  | .enlist _ | .tick | .dispatch | .setState _ _ | .setQuantum _ | .reset => False

/-- What an operation does to the session, with the switch that it decides on. -/
inductive Effect (w : Session) : Operation → Option Switch → Session → Prop
  /-- The operation fails. -/
  | failed {operation : Operation} (tick : operation ≠ .tick) (reset : operation ≠ .reset)
      (absent : ∀ k, operation = .enlist k → w.pending[k]? = none) : Effect w operation none w
  | made {operation : Operation} {p : ProcessDescriptor} (makes : operation.Makes)
      (pid : p.pid = w.scheduler.nextPid) (state : p.state = .new)
      (timeUsed : p.thread.timeUsed = 0) : Effect w operation none
        ⟨{ w.scheduler with nextPid := w.scheduler.nextPid + 1 }, w.pending ++ [p]⟩
  | dropped {k : ℕ} {p : ProcessDescriptor} (pending : w.pending[k]? = some p)
      (full : capacity ≤ w.scheduler.table.size) :
      Effect w (.enlist k) none ⟨w.scheduler, w.pending.eraseIdx k⟩
  | enlisted {k : ℕ} {p : ProcessDescriptor} {pid : Pid} {s : Scheduler}
      (pending : w.pending[k]? = some p) (enlist : w.scheduler.enlist p = .ok (pid, s)) :
      Effect w (.enlist k) none ⟨s, w.pending.eraseIdx k⟩
  | ticked {switch : Option Switch} {s : Scheduler} (tick : w.scheduler.tick = .ok (switch, s)) :
      Effect w .tick switch { w with scheduler := s }
  | dispatched {sw : Switch} {s : Scheduler} (dispatch : w.scheduler.dispatch? = some (sw, s)) :
      Effect w .dispatch (some sw) { w with scheduler := s }
  | moved {pid : Pid} {state : ProcessState} {s : Scheduler}
      (set : w.scheduler.setState pid state = .ok s) :
      Effect w (.setState pid state) none { w with scheduler := s }
  | retimed {ticks : ℕ} {s : Scheduler} (set : w.scheduler.setQuantum ticks = .ok s) :
      Effect w (.setQuantum ticks) none { w with scheduler := s }
  | reset : Effect w .reset none { w with scheduler := w.scheduler.reset }

variable {w w' : Session} {operation : Operation} {switch : Option Switch}

theorem Effect.of_unchanged (htick : operation ≠ .tick) (hreset : operation ≠ .reset)
    (habsent : ∀ k, operation = .enlist k → w.pending[k]? = none)
    (h : (.ok (none, w) : Except Panic (Option Switch × Session)) = .ok (switch, w')) :
    Effect w operation switch w' := by
  obtain ⟨rfl, rfl⟩ := Prod.mk.inj (Except.ok.inj h)
  exact .failed htick hreset habsent

theorem Effect.of_keep (hmakes : operation.Makes) {privilege : Ring} {heapBase heapSize : UInt64}
    {thread : ThreadState} {memory : Bool} (hthread : thread.timeUsed = 0)
    (h : (w.keep (w.scheduler.newDescriptor privilege heapBase heapSize thread memory)).map
      (none, ·) = .ok (switch, w')) : Effect w operation switch w' := by
  obtain ⟨u, hkeep, hu⟩ := map_eq_ok h
  obtain ⟨rfl, rfl⟩ := Prod.mk.inj hu
  unfold Session.keep at hkeep
  split at hkeep
  · contradiction
  · obtain rfl := Except.ok.inj hkeep
    refine .failed ?_ ?_ ?_
    · rintro rfl
      exact hmakes.elim
    · rintro rfl
      exact hmakes.elim
    · rintro k rfl
      exact hmakes.elim
  · rename_i p s hnew
    obtain ⟨hpid, hstate, rfl⟩ := newDescriptor_eq_ok hnew
    obtain rfl := Except.ok.inj hkeep
    exact .made hmakes hpid hstate (by rw [thread_newDescriptor hnew, hthread])

/-- Every operation that comes to an end has one of the effects. -/
theorem Operation.effect (h : operation.perform w = .ok (switch, w')) :
    Effect w operation switch w' := by
  cases operation with
  | create plan memory =>
    simp only [perform] at h
    split at h
    · exact .of_unchanged (by simp) (by simp) (by simp) h
    · exact .of_keep trivial rfl h
  | adopt memory => exact .of_keep trivial rfl h
  | enlist k =>
    simp only [perform] at h
    split at h
    · rename_i hnone
      exact .of_unchanged (by simp) (by simp) (by simpa using hnone) h
    · rename_i p hp
      split at h
      · rename_i henlist
        obtain ⟨rfl, rfl⟩ := Prod.mk.inj (Except.ok.inj h)
        refine .dropped hp (Nat.le_of_not_lt fun hspace => ?_)
        simp [Scheduler.enlist, Nat.not_le_of_lt hspace] at henlist
      · rename_i henlist
        obtain ⟨rfl, rfl⟩ := Prod.mk.inj (Except.ok.inj h)
        exact .enlisted hp henlist
  | tick =>
    obtain ⟨⟨switch', s⟩, htick, hw⟩ := map_eq_ok h
    obtain ⟨rfl, rfl⟩ := Prod.mk.inj hw
    exact .ticked htick
  | dispatch =>
    simp only [perform] at h
    split at h
    · exact .of_unchanged (by simp) (by simp) (by simp) h
    · rename_i hdispatch
      obtain ⟨rfl, rfl⟩ := Prod.mk.inj (Except.ok.inj h)
      exact .dispatched hdispatch
  | setState pid state =>
    simp only [perform] at h
    split at h
    · exact .of_unchanged (by simp) (by simp) (by simp) h
    · rename_i hset
      obtain ⟨rfl, rfl⟩ := Prod.mk.inj (Except.ok.inj h)
      exact .moved hset
  | setQuantum ticks =>
    simp only [perform] at h
    split at h
    · exact .of_unchanged (by simp) (by simp) (by simp) h
    · rename_i hset
      obtain ⟨rfl, rfl⟩ := Prod.mk.inj (Except.ok.inj h)
      exact .retimed hset
  | reset =>
    obtain ⟨rfl, rfl⟩ := Prod.mk.inj (Except.ok.inj h)
    exact .reset

theorem Effect.step (h : Effect w operation switch w') :
    Step w.scheduler w'.scheduler operation switch := by
  cases h with
  | failed => exact .quiet rfl rfl rfl
  | made => exact .quiet rfl rfl rfl
  | dropped => exact .quiet rfl rfl rfl
  | enlisted pending enlist =>
    obtain ⟨hspace, -, hresult⟩ := enlist_eq_ok enlist
    exact .enlisted hspace hresult
  | ticked tick =>
    obtain ⟨u, hcharge, hcases⟩ := tick_eq_ok tick
    refine .ticked hcharge ?_
    rcases hcases with ⟨sw, hsw, -, hdispatch⟩ | ⟨hnone, hsame, -⟩
    · exact .inl ⟨sw, hsw, hdispatch⟩
    · exact .inr ⟨hnone, hsame⟩
  | dispatched dispatch => exact .dispatched dispatch
  | moved set => exact .moved set
  | retimed set => exact .retimed set
  | reset => exact .reset rfl

/-- For the scheduler, every operation that comes to an end is one of the steps. -/
theorem Operation.step (h : operation.perform w = .ok (switch, w')) :
    Step w.scheduler w'.scheduler operation switch :=
  (operation.effect h).step

/-- What a record and the session keep together holds at the end of a session. -/
theorem chronicle_induction {α : Type} {note : α → Session → Operation → Session → α}
    {J : α → Session → Prop} {a : α} {operations : List Operation}
    (hstart : J a w) (hrun : performAll operations w = .ok w')
    (hstep : ∀ {a operation switch w w'}, J a w → operation.perform w = .ok (switch, w') →
      J (note a w operation w') w') : J (chronicle note a operations w) w' := by
  induction operations generalizing a w with
  | nil =>
    obtain rfl := Except.ok.inj hrun
    exact hstart
  | cons operation rest ih =>
    rw [performAll] at hrun
    split at hrun
    · contradiction
    · rename_i switch w'' hperform
      rw [chronicle, hperform]
      exact ih (hstep hstart hperform) hrun

end Scheduler

end KernelCore
