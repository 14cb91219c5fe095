import KernelCore.Proofs.Scheduler.LifeCycle

/-!
# Pids over resets

A reset starts the pids over, and a process that is not registered outlives it with the pid that it
has. Two processes with one pid were therefore made with a reset between them, and the pid leads to
the one of them that was registered first. As long as nobody is registered after a reset that came
after the making, a pid stands for one process.
-/

namespace KernelCore

namespace Scheduler

variable {s : Scheduler} {p q : ProcessDescriptor} {i : ℕ} {pid : Pid} {w w' : Session}
  {operation : Operation} {switch : Option Switch} {operations : List Operation}

/-! ## The process that a pid leads to -/

/-- Pids of the processes in the table, slot by slot. -/
def pids (s : Scheduler) : List Pid := s.table.toList.map (·.pid)

@[simp] theorem getElem?_pids (s : Scheduler) (i : ℕ) :
    s.pids[i]? = s.table[i]?.map (·.pid) := by
  rw [pids, List.getElem?_map, Array.getElem?_toList]

theorem length_pids (s : Scheduler) : s.pids.length = s.table.size := by
  rw [pids, List.length_map, Array.length_toList]

/-- The pid leads to the process in slot `i`: that one is found, and its state is the one set. -/
def Names (s : Scheduler) (pid : Pid) (i : ℕ) : Prop :=
  ∃ p, s.table[i]? = some p ∧ p.pid = pid ∧ s.process? pid = some p ∧
    ∀ state, s.setState pid state =
      if state = .running || !p.state.canBecome state then .error .invalidTransition
      else .ok (s.setStateAt i state)

/-- A pid leads to the first process in the table that has it. -/
theorem names_of_first (hp : s.table[i]? = some p)
    (hfirst : ∀ j < i, ∀ q, s.table[j]? = some q → q.pid ≠ p.pid) : Names s p.pid i := by
  have hslot : s.slot? p.pid = some i := by
    obtain ⟨hi, rfl⟩ := Array.getElem?_eq_some_iff.mp hp
    refine Array.findIdx?_eq_some_iff_getElem.mpr ⟨hi, by simp, fun j hj => ?_⟩
    have hne := hfirst j hj _ (Array.getElem?_eq_getElem (by omega))
    simpa using hne
  refine ⟨p, hp, rfl, ?_, fun state => ?_⟩
  · rw [process?, hslot, Option.bind_some, hp]
  · simp only [setState, hslot, hp]

theorem first_of_nodup (h : s.pids.Nodup) (hp : s.table[i]? = some p) :
    ∀ j < i, ∀ q, s.table[j]? = some q → q.pid ≠ p.pid := by
  intro j hj q hq hpid
  have hi := (Array.getElem?_eq_some_iff.mp hp).1
  have hsame : s.pids[j]? = s.pids[i]? := by
    rw [getElem?_pids, getElem?_pids, hp, hq, Option.map_some, Option.map_some, hpid]
  have hji := (List.getElem?_inj (by rw [length_pids]; omega) h).mp hsame
  omega

/-! ## Births -/

/-- When a process was made: after how many resets, and with which pid. -/
structure Birth where
  resets : ℕ
  pid : Pid
deriving DecidableEq

/-- The births of the processes of a session, in the order in which they are listed there. -/
structure Births where
  /-- Resets up to now. -/
  resets : ℕ
  table : List Birth
  pending : List Birth

namespace Births

def start : Births := ⟨0, [], []⟩

/-- The births after an operation that leads from `w` to `w'`. -/
def next (b : Births) (w : Session) (operation : Operation) (w' : Session) : Births :=
  match operation with
  | .create _ _ | .adopt _ =>
    let made := w'.pending.drop w.pending.length
    { b with pending := b.pending ++ made.map fun p => ⟨b.resets, p.pid⟩ }
  | .enlist k =>
    let came :=
      if w.scheduler.table.size < w'.scheduler.table.size then b.pending[k]?.toList else []
    { b with table := b.table ++ came, pending := b.pending.eraseIdx k }
  | .reset => ⟨b.resets + 1, [], b.pending⟩
  | .tick | .dispatch | .setState _ _ | .setQuantum _ => b

/-- Nobody in the table was made before the last reset. -/
def Current (b : Births) : Prop := ∀ x ∈ b.table, x.resets = b.resets

end Births

/-- The births after a run from the start. -/
def births (operations : List Operation) : Births :=
  chronicle Births.next Births.start operations .start

variable {b : Births}

/-- The births are those of the session, and no two of them are the same. -/
structure Born (b : Births) (w : Session) : Prop where
  table : b.table.map (·.pid) = w.scheduler.pids
  pending : b.pending.map (·.pid) = w.pending.map (·.pid)
  nodup : (b.table ++ b.pending).Nodup
  before : ∀ x ∈ b.table ++ b.pending,
    x.resets < b.resets ∨ x.resets = b.resets ∧ x.pid < w.scheduler.nextPid

theorem born_start : Born .start .start := by
  constructor <;> simp [Births.start, Session.start, pids, empty]

/-- The same processes are there, with the same pid to be given next. -/
theorem Born.congr (h : Born b w) (hpids : w'.scheduler.pids = w.scheduler.pids)
    (hpending : w'.pending = w.pending) (hnextPid : w'.scheduler.nextPid = w.scheduler.nextPid) :
    Born b w' :=
  ⟨hpids ▸ h.table, hpending ▸ h.pending, h.nodup, hnextPid ▸ h.before⟩

/-- A new process has a pid that was not given since the last reset. -/
theorem Born.made (h : Born b w) (hpid : p.pid = w.scheduler.nextPid) :
    Born { b with pending := b.pending ++ [⟨b.resets, p.pid⟩] }
      ⟨{ w.scheduler with nextPid := w.scheduler.nextPid + 1 }, w.pending ++ [p]⟩ := by
  have hfresh : (⟨b.resets, p.pid⟩ : Birth) ∉ b.table ++ b.pending := by
    intro hmem
    rcases h.before _ hmem with hlt | ⟨-, hlt⟩
    · exact Nat.lt_irrefl _ hlt
    · exact Nat.lt_irrefl _ (hpid ▸ hlt)
  constructor
  · exact h.table
  · rw [List.map_append, List.map_append, h.pending, List.map_singleton, List.map_singleton]
  · rw [← List.append_assoc]
    exact List.nodup_append.mpr ⟨h.nodup, List.nodup_singleton _, fun x hx y hy hxy =>
      hfresh (by rwa [← List.mem_singleton.mp hy, ← hxy])⟩
  · intro x hx
    rw [← List.append_assoc] at hx
    rcases List.mem_append.mp hx with hold | hnew
    · rcases h.before x hold with hlt | ⟨heq, hlt⟩
      · exact .inl hlt
      · exact .inr ⟨heq, Nat.lt_succ_of_lt hlt⟩
    · rw [List.mem_singleton.mp hnew]
      exact .inr ⟨rfl, hpid ▸ Nat.lt_succ_self _⟩

/-- A process that does not get into the table is dropped. -/
theorem Born.drop (h : Born b w) (k : ℕ) :
    Born { b with pending := b.pending.eraseIdx k } ⟨w.scheduler, w.pending.eraseIdx k⟩ := by
  have hsublist : (b.table ++ b.pending.eraseIdx k).Sublist (b.table ++ b.pending) :=
    (List.Sublist.refl _).append (List.eraseIdx_sublist _ _)
  refine ⟨h.table, ?_, h.nodup.sublist hsublist, fun x hx => h.before x (hsublist.mem hx)⟩
  rw [← List.eraseIdx_map, h.pending, List.eraseIdx_map]

/-- A process goes from the pending ones to the end of the table. -/
theorem Born.enlist (h : Born b w) {k : ℕ} (hp : w.pending[k]? = some p)
    (henlist : w.scheduler.enlist p = .ok (pid, s)) :
    Born (b.next w (.enlist k) ⟨s, w.pending.eraseIdx k⟩) ⟨s, w.pending.eraseIdx k⟩ := by
  obtain ⟨-, -, rfl⟩ := enlist_eq_ok henlist
  have hbirth : (b.pending[k]?).map (·.pid) = some p.pid := by
    rw [← List.getElem?_map, h.pending, List.getElem?_map, hp, Option.map_some]
  obtain ⟨x, hx, hpid⟩ := Option.map_eq_some_iff.mp hbirth
  obtain ⟨hk, rfl⟩ := List.getElem?_eq_some_iff.mp hx
  have hperm : (b.table ++ [b.pending[k]] ++ b.pending.eraseIdx k).Perm (b.table ++ b.pending) := by
    rw [List.append_assoc, List.singleton_append]
    exact (List.getElem_cons_eraseIdx_perm hk).append_left _
  simp only [Births.next, Array.size_push, Nat.lt_succ_self, if_true, hx, Option.toList_some]
  constructor
  · rw [List.map_append, h.table, List.map_singleton, hpid, pids, pids, Array.toList_push,
      List.map_append, List.map_singleton]
    rfl
  · rw [← List.eraseIdx_map, h.pending, List.eraseIdx_map]
  · exact hperm.nodup_iff.mpr h.nodup
  · exact fun y hy => h.before y (hperm.mem_iff.mp hy)

/-- A reset leaves those that are not registered, all of them made before it. -/
theorem Born.reset (h : Born b w) :
    Born ⟨b.resets + 1, [], b.pending⟩ { w with scheduler := w.scheduler.reset } := by
  refine ⟨rfl, h.pending, (List.nodup_append.mp h.nodup).2.1, fun x hx => .inl ?_⟩
  rcases h.before x (List.mem_append_right _ hx) with hlt | ⟨heq, -⟩
  · exact Nat.lt_succ_of_lt hlt
  · exact heq ▸ Nat.lt_succ_self _

theorem Keeps.pids_eq {t : Scheduler} (h : Keeps s t) (hsize : t.table.size = s.table.size) :
    t.pids = s.pids := by
  refine List.ext_getElem? fun i => ?_
  rw [getElem?_pids, getElem?_pids]
  cases hp : s.table[i]? with
  | none =>
    have hi := Array.getElem?_eq_none_iff.mp hp
    rw [Array.getElem?_eq_none (by omega)]
  | some p =>
    obtain ⟨q, hq, hpid, -⟩ := h i p hp
    rw [hq, Option.map_some, Option.map_some, hpid]

/-- Operations that only change entries of the table where they are leave all births alone. -/
theorem Born.unmoved (h : Born b w) (hperform : operation.perform w = .ok (switch, w'))
    (hnext : b.next w operation w' = b) (hreset : operation ≠ .reset)
    (hsize : w'.scheduler.table.size = w.scheduler.table.size) (hpending : w'.pending = w.pending)
    (hnextPid : w'.scheduler.nextPid = w.scheduler.nextPid) : Born (b.next w operation w') w' := by
  rw [hnext]
  exact h.congr (((Operation.step hperform).keeps hreset).pids_eq hsize) hpending hnextPid

theorem size_of_charge {t : Scheduler} (h : s.charge = .ok t) : t.table.size = s.table.size := by
  obtain ⟨-, -, -, hupdates⟩ := charge_eq_ok h
  exact hupdates.size

theorem size_of_dispatch? {t : Scheduler} {sw : Switch} (h : s.dispatch? = some (sw, t)) :
    t.table.size = s.table.size := by
  obtain ⟨-, -, -, -, -, -, -, -, -, hupdates⟩ := dispatch?_eq_some h
  exact hupdates.size

theorem Born.step (h : Born b w) (hperform : operation.perform w = .ok (switch, w')) :
    Born (b.next w operation w') w' := by
  cases operation.effect hperform with
  | failed _ reset absent =>
    cases operation with
    | create | adopt => simpa [Births.next] using h
    | enlist k =>
      have hdropped := h.drop k
      rw [List.eraseIdx_of_length_le (List.getElem?_eq_none_iff.mp (absent k rfl))] at hdropped
      simpa [Births.next] using hdropped
    | reset => exact absurd rfl reset
    | tick | dispatch | setState | setQuantum => exact h
  | made makes pid _ _ =>
    cases operation with
    | create | adopt => simpa [Births.next] using h.made pid
    | _ => exact makes.elim
  | dropped => simpa [Births.next] using h.drop _
  | enlisted pending enlist => exact h.enlist pending enlist
  | ticked tick =>
    obtain ⟨u, hcharge, hcases⟩ := tick_eq_ok tick
    have hsize := size_of_charge hcharge
    have hnextPid := nextPid_of_charge hcharge
    rcases hcases with ⟨sw, -, -, hdispatch⟩ | ⟨-, rfl, -⟩
    · exact h.unmoved hperform rfl (by simp) ((size_of_dispatch? hdispatch).trans hsize) rfl
        ((counts_of_dispatch? hdispatch).1.trans hnextPid)
    · exact h.unmoved hperform rfl (by simp) hsize rfl hnextPid
  | dispatched dispatch =>
    exact h.unmoved hperform rfl (by simp) (size_of_dispatch? dispatch) rfl
      (counts_of_dispatch? dispatch).1
  | moved set =>
    obtain ⟨i, -, -, -, -, -, rfl⟩ := setState_eq_ok set
    exact h.unmoved hperform rfl (by simp) (updates_modify _ i _).size rfl rfl
  | retimed set =>
    obtain ⟨-, -, -, hupdates⟩ := setQuantum_eq_ok set
    exact h.unmoved hperform rfl (by simp) hupdates.size rfl (nextPid_of_setQuantum set)
  | reset => exact h.reset

theorem born_of_performAll (hrun : performAll operations .start = .ok w) :
    Born (births operations) w :=
  chronicle_induction born_start hrun fun h hperform => h.step hperform

/-- Without processes from before the last reset no pid is in the table twice. -/
theorem Born.nodup_pids (h : Born b w) (hcurrent : b.Current) : w.scheduler.pids.Nodup := by
  rw [← h.table]
  have hnodup : b.table.Nodup := (List.nodup_append.mp h.nodup).1
  refine List.Nodup.map_on (fun x hx y hy hpid => ?_) hnodup
  have hresets : x.resets = y.resets := (hcurrent x hx).trans (hcurrent y hy).symm
  cases x
  cases y
  simp_all

/-! ## Registrations -/

theorem performAll_append {before later : List Operation}
    (hrun : performAll (before ++ later) w = .ok w') :
    ∃ u, performAll before w = .ok u ∧ performAll later u = .ok w' := by
  induction before generalizing w with
  | nil => exact ⟨w, rfl, hrun⟩
  | cons operation rest ih =>
    rw [List.cons_append, performAll] at hrun
    rw [performAll]
    split at hrun
    · contradiction
    · exact ih hrun

/-- The process `p` came into slot `i` by a registration that returned `pid`, and there was no reset
since. -/
def Registers (operations : List Operation) (p : ProcessDescriptor) (pid : Pid) (i : ℕ) : Prop :=
  ∃ before k later u s, operations = before ++ .enlist k :: later ∧ .reset ∉ later ∧
    performAll before .start = .ok u ∧ u.pending[k]? = some p ∧
    u.scheduler.enlist p = .ok (pid, s) ∧ u.scheduler.table.size = i

/-- The process is in its slot still, with the pid that was returned. -/
theorem Registers.keeps (h : Registers operations p pid i)
    (hrun : performAll operations .start = .ok w) :
    ∃ q, w.scheduler.table[i]? = some q ∧ q.pid = pid ∧ SameProcess p q := by
  obtain ⟨before, k, later, u, s, rfl, hreset, hbefore, hp, henlist, rfl⟩ := h
  obtain ⟨u', hbefore', hlater⟩ := performAll_append hrun
  obtain rfl := Except.ok.inj (hbefore.symm.trans hbefore')
  have hperform : Operation.perform u (.enlist k) = .ok (none, ⟨s, u.pending.eraseIdx k⟩) := by
    simp only [Operation.perform, hp, henlist]
  rw [performAll, hperform] at hlater
  have hkeeps : Keeps s w.scheduler := by
    refine performAll_induction (J := Keeps s) (.refl _) hlater fun hmem h hstep => ?_
    refine h.trans (hstep.keeps ?_)
    rintro rfl
    exact hreset hmem
  obtain ⟨-, rfl, rfl⟩ := enlist_eq_ok henlist
  obtain ⟨q, hq, hpid, hsame⟩ := hkeeps u.scheduler.table.size (u.scheduler.enlisted p)
    (by simp)
  exact ⟨q, hq, hpid, SameProcess.trans ⟨_, p.thread.timeUsed, _, rfl⟩ hsame⟩

/-- Two processes in the table with one pid were made with a reset between them, and the pid leads
to the first of them. Without processes from before the last reset the pids are distinct, and a pid
that a registration returned since then leads to the process that was registered. -/
theorem pids_identify_processes (hrun : performAll operations .start = .ok w) :
    ((births operations).table.map (·.pid) = w.scheduler.pids ∧
      (births operations).table.Nodup) ∧
    (∀ (i : ℕ) p, w.scheduler.table[i]? = some p →
      (∀ j < i, ∀ q, w.scheduler.table[j]? = some q → q.pid ≠ p.pid) →
      Names w.scheduler p.pid i) ∧
    ((births operations).Current → w.scheduler.pids.Nodup) ∧
    ∀ p pid i, Registers operations p pid i →
      (∃ q, w.scheduler.table[i]? = some q ∧ q.pid = pid ∧ SameProcess p q) ∧
      ((births operations).Current → Names w.scheduler pid i) := by
  have hborn := born_of_performAll hrun
  refine ⟨⟨hborn.table, (List.nodup_append.mp hborn.nodup).1⟩, fun i p hp hfirst =>
    names_of_first hp hfirst, hborn.nodup_pids, fun p pid i hregisters => ?_⟩
  obtain ⟨q, hq, rfl, hsame⟩ := hregisters.keeps hrun
  exact ⟨⟨q, hq, rfl, hsame⟩, fun hcurrent =>
    names_of_first hq (first_of_nodup (hborn.nodup_pids hcurrent) hq)⟩

/-- Two processes are made after a reset, and the second one is registered first. -/
def outOfOrder : List Operation :=
  [.adopt true, .enlist 0, .reset, .adopt true, .adopt true, .enlist 1, .enlist 0]

theorem pids_identify_processes_out_of_order :
    ∃ w p, performAll outOfOrder .start = .ok w ∧ w.scheduler.pids = [2, 1] ∧
      Registers outOfOrder p 2 0 ∧ (births outOfOrder).Current ∧ Names w.scheduler 2 0 := by
  obtain ⟨w, hrun, hpids⟩ : ∃ w, performAll outOfOrder .start = .ok w ∧
      some w.scheduler.pids = some [2, 1] := exists_performAll (by decide +kernel)
  have hcurrent : (births outOfOrder).Current := by
    unfold Births.Current
    decide +kernel
  obtain ⟨p, hregisters⟩ : ∃ p, Registers outOfOrder p 2 0 :=
    ⟨_, [.adopt true, .enlist 0, .reset, .adopt true, .adopt true], 1, [.enlist 0], _, _, rfl,
      by decide, rfl, rfl, rfl, rfl⟩
  obtain ⟨-, -, -, hnames⟩ := pids_identify_processes hrun
  exact ⟨w, p, hrun, Option.some.inj hpids, hregisters, hcurrent,
    (hnames p 2 0 hregisters).2 hcurrent⟩

/-- A process from before a reset is registered with one that was made after it. -/
def heldOver : List Operation := [.adopt true, .reset, .adopt true, .enlist 0, .enlist 0]

/-- Both registrations return pid 1, which does not lead to the second process. -/
theorem held_over_process_shares_pid :
    ∃ w p, performAll heldOver .start = .ok w ∧ w.scheduler.pids = [1, 1] ∧
      Registers heldOver p 1 1 ∧ ¬ Names w.scheduler 1 1 := by
  obtain ⟨w, hrun, hend⟩ : ∃ w, performAll heldOver .start = .ok w ∧
      some (w.scheduler.pids, w.scheduler.table.toList.map (·.state),
        (w.scheduler.process? 1).map (·.state)) =
      some ([1, 1], [.running, .ready], some .running) :=
    exists_performAll (by decide +kernel)
  simp only [Option.some.injEq, Prod.mk.injEq] at hend
  obtain ⟨hpids, hstates, hfound⟩ := hend
  obtain ⟨p, hregisters⟩ : ∃ p, Registers heldOver p 1 1 :=
    ⟨_, [.adopt true, .reset, .adopt true, .enlist 0], 0, [], _, _, rfl, by decide, rfl, rfl, rfl,
      rfl⟩
  refine ⟨w, p, hrun, hpids, hregisters, ?_⟩
  rintro ⟨q, hq, -, hprocess, -⟩
  -- the process that is found runs, the one in slot 1 does not
  have hready : some q.state = some ProcessState.ready := by
    have hslot := congrArg (·[1]?) hstates
    simpa [hq] using hslot
  rw [hprocess, Option.map_some, hready] at hfound
  simp at hfound

end Scheduler

end KernelCore
