import KernelCore.Proofs.Scheduler.Coherence
import Mathlib.Data.List.Chain

/-!
# Life cycle of a process

The scheduler writes states in four places and asks for the life cycle in one of them only. That the
other writes follow it too rests on what is known of a session: pids are given out in ascending
order, so a pid stands for one process, and a process that is not registered is new.

A registration writes twice, so the sessions that are passed through have one more between them.
-/

namespace KernelCore

namespace Scheduler

variable {s t : Scheduler} {p q : ProcessDescriptor} {i : ℕ} {pid : Pid} {w w' : Session}
  {f : ℕ → ProcessDescriptor → ProcessDescriptor} {operation : Operation} {switch : Option Switch}

/-! ## The two writes of a registration -/

/-- Puts a process at the end of the table, ready. -/
def append (s : Scheduler) (p : ProcessDescriptor) : Scheduler :=
  let p := { p with state := .ready, thread := { p.thread with timeSlice := s.timeSlice } }
  { s with table := s.table.push p }

/-- Gives the processor to the last process if nobody has it. -/
def promote (s : Scheduler) : Scheduler :=
  if s.current.isNone then
    { s.setStateAt (s.table.size - 1) .running with current := some (s.table.size - 1) }
  else s

theorem push_modify_last {α : Type} (xs : Array α) (x : α) (f : α → α) :
    (xs.push x).modify xs.size f = xs.push (f x) := by
  ext i h₁ h₂
  · simp
  · rw [Array.getElem_modify]
    rcases Nat.lt_or_ge i xs.size with hlt | hge
    · rw [if_neg (by omega), Array.getElem_push_lt hlt, Array.getElem_push_lt hlt]
    · obtain rfl : i = xs.size := by rw [Array.size_push] at h₂; omega
      simp

theorem enlist_eq_promote (hspace : s.table.size < capacity) :
    s.enlist p = .ok (p.pid, (s.append p).promote) := by
  rw [enlist, if_neg (by omega)]
  cases hcurrent : s.current with
  | none => simp [append, promote, setStateAt, modify, hcurrent, push_modify_last]
  | some c => simp [append, promote, hcurrent]

/-! ## The sessions that are passed through -/

/-- The sessions inside an operation. -/
def Operation.between (w : Session) : Operation → List Session
  | .enlist k =>
    match w.pending[k]? with
    | none => []
    | some p =>
      if capacity ≤ w.scheduler.table.size then []
      else [⟨w.scheduler.append p, w.pending.eraseIdx k⟩]
  | _ => []

/-- The sessions that operations go through, the one they start from first. -/
def passed : List Operation → Session → List Session
  | [], w => [w]
  | operation :: rest, w =>
    match operation.perform w with
    | .error _ => [w]
    | .ok (_, w') => w :: (operation.between w ++ passed rest w')

theorem passed_eq_cons (operations : List Operation) (w : Session) :
    ∃ later, passed operations w = w :: later := by
  cases operations with
  | nil => exact ⟨[], rfl⟩
  | cons operation rest =>
    rw [passed]
    split
    · exact ⟨[], rfl⟩
    · exact ⟨_, rfl⟩

theorem getLast?_passed {operations : List Operation} (hrun : performAll operations w = .ok w') :
    (passed operations w).getLast? = some w' := by
  induction operations generalizing w with
  | nil =>
    obtain rfl := Except.ok.inj hrun
    rfl
  | cons operation rest ih =>
    rw [performAll] at hrun
    split at hrun
    · contradiction
    · rename_i switch w'' hperform
      simp only [passed, hperform]
      rw [List.getLast?_cons, List.getLast?_append, ih hrun]
      rfl

namespace Session

/-- The processes that exist, registered or not. -/
def processes (w : Session) : List ProcessDescriptor := w.scheduler.table.toList ++ w.pending

/-- State of the process with a pid. -/
def state? (w : Session) (pid : Pid) : Option ProcessState :=
  (w.processes.find? (·.pid == pid)).map (·.state)

theorem mem_processes :
    p ∈ w.processes ↔ (∃ i : ℕ, w.scheduler.table[i]? = some p) ∨ p ∈ w.pending := by
  rw [processes, List.mem_append, Array.mem_toList_iff, Array.mem_iff_getElem?]

/-- Pids are not given out twice, and whoever is not registered is new. -/
structure Numbered (w : Session) : Prop where
  nodup : (w.processes.map (·.pid)).Nodup
  lt_nextPid : ∀ p ∈ w.processes, p.pid < w.scheduler.nextPid
  pending_new : ∀ p ∈ w.pending, p.state = .new

theorem Numbered.eq_of_pid (h : Numbered w) (hp : p ∈ w.processes) (hq : q ∈ w.processes)
    (hpid : p.pid = q.pid) : p = q :=
  List.inj_on_of_nodup_map h.nodup hp hq hpid

theorem Numbered.state?_eq (h : Numbered w) (hp : p ∈ w.processes) :
    w.state? p.pid = some p.state := by
  rw [state?]
  cases hfind : w.processes.find? (·.pid == p.pid) with
  | none => simpa using List.find?_eq_none.mp hfind p hp
  | some q =>
    have hpid : q.pid = p.pid := by simpa using List.find?_some hfind
    rw [Option.map_some, h.eq_of_pid (List.mem_of_find?_eq_some hfind) hp hpid]

theorem exists_of_state? {state : ProcessState} (h : w.state? pid = some state) :
    ∃ p ∈ w.processes, p.pid = pid ∧ p.state = state := by
  obtain ⟨p, hfind, hstate⟩ := Option.map_eq_some_iff.mp h
  exact ⟨p, List.mem_of_find?_eq_some hfind, by simpa using List.find?_some hfind, hstate⟩

theorem Numbered.lt_of_state? (h : Numbered w) {state : ProcessState}
    (hstate : w.state? pid = some state) : pid < w.scheduler.nextPid := by
  obtain ⟨p, hp, rfl, -⟩ := exists_of_state? hstate
  exact h.lt_nextPid p hp

theorem numbered_start : Numbered .start := by
  constructor <;> simp [processes, start, empty]

end Session

/-! ## One write after the other -/

/-- A state and the one after it, if the process is written to at all. -/
def Follows (a b : ProcessState) : Prop := a = b ∨ a.canBecome b = true

instance : DecidableRel Follows := fun a b =>
  inferInstanceAs (Decidable (a = b ∨ a.canBecome b = true))

theorem Follows.refl (a : ProcessState) : Follows a a := .inl rfl

/-- Processes that are new, and one step of the life cycle for each of the others at most. -/
structure Advances (w w' : Session) : Prop where
  numbered : Session.Numbered w'
  nextPid_le : w.scheduler.nextPid ≤ w'.scheduler.nextPid
  comes : ∀ q ∈ w'.processes, (∃ p ∈ w.processes, p.pid = q.pid ∧ Follows p.state q.state) ∨
    w.scheduler.nextPid ≤ q.pid ∧ q.state = .new

theorem Advances.state? (h : Advances w w') (hw : w.Numbered) {b : ProcessState}
    (hstate : w'.state? pid = some b) :
    (∃ a, w.state? pid = some a ∧ Follows a b) ∨ w.scheduler.nextPid ≤ pid ∧ b = .new := by
  obtain ⟨q, hq, rfl, rfl⟩ := Session.exists_of_state? hstate
  rcases h.comes q hq with ⟨p, hp, hpid, hfollows⟩ | hfresh
  · exact .inl ⟨p.state, hpid ▸ hw.state?_eq hp, hfollows⟩
  · exact .inr hfresh

/-- The states of a process follow each other, and a process that is not there yet comes new. -/
theorem isChain_states {later : List Session} (hw : w.Numbered)
    (h : (w :: later).IsChain Advances) (pid : Pid) :
    ((w :: later).filterMap (·.state? pid)).IsChain Follows ∧
      ∀ b ∈ ((w :: later).filterMap (·.state? pid)).head?,
        w.state? pid = some b ∨
          w.state? pid = none ∧ w.scheduler.nextPid ≤ pid ∧ b = .new := by
  induction later generalizing w with
  | nil => cases hstate : w.state? pid <;> simp [hstate]
  | cons w' later ih =>
    obtain ⟨hadvances, hlater⟩ := List.isChain_cons_cons.mp h
    obtain ⟨hchain, hhead⟩ := ih hadvances.numbered hlater
    -- whoever comes later comes from here, or is new
    have hnext : ∀ b ∈ ((w' :: later).filterMap (·.state? pid)).head?,
        (∃ a, w.state? pid = some a ∧ Follows a b) ∨ w.scheduler.nextPid ≤ pid ∧ b = .new := by
      intro b hb
      rcases hhead b hb with hstate | ⟨-, hfresh, hnew⟩
      · exact hadvances.state? hw hstate
      · exact .inr ⟨hadvances.nextPid_le.trans hfresh, hnew⟩
    cases hstate : w.state? pid with
    | none =>
      rw [List.filterMap_cons_none (by exact hstate)]
      refine ⟨hchain, fun b hb => .inr ⟨rfl, ?_⟩⟩
      rcases hnext b hb with ⟨a, ha, -⟩ | hfresh
      · simp [hstate] at ha
      · exact hfresh
    | some a =>
      have hlt := hw.lt_of_state? hstate
      rw [List.filterMap_cons_some (by exact hstate)]
      refine ⟨List.isChain_cons.mpr ⟨fun b hb => ?_, hchain⟩, fun b hb => .inl ?_⟩
      · rcases hnext b hb with ⟨a', ha', hfollows⟩ | ⟨hfresh, -⟩
        · rw [hstate] at ha'
          rwa [Option.some.inj ha']
        · exact absurd hfresh (Nat.not_le_of_lt hlt)
      · simpa using hb

/-! ## Operations -/

/-- Entries that change where they are, each by a step of the life cycle. -/
theorem Advances.of_updates (hw : w.Numbered) (hpending : w'.pending = w.pending)
    (hnextPid : w'.scheduler.nextPid = w.scheduler.nextPid)
    (hupdates : Updates w.scheduler w'.scheduler f) (hpid : ∀ i p, (f i p).pid = p.pid)
    (hstate : ∀ i p, w.scheduler.table[i]? = some p → Follows p.state (f i p).state) :
    Advances w w' := by
  have hcomes : ∀ q ∈ w'.processes,
      ∃ p ∈ w.processes, p.pid = q.pid ∧ Follows p.state q.state := by
    intro q hq
    rcases Session.mem_processes.mp hq with ⟨i, hi⟩ | hq
    · obtain ⟨p, hp, rfl⟩ := hupdates.eq_some hi
      exact ⟨p, Session.mem_processes.mpr (.inl ⟨i, hp⟩), (hpid i p).symm, hstate i p hp⟩
    · rw [hpending] at hq
      exact ⟨q, Session.mem_processes.mpr (.inr hq), rfl, .refl _⟩
  have hpids : w'.processes.map (·.pid) = w.processes.map (·.pid) := by
    rw [Session.processes, Session.processes, List.map_append, List.map_append, hpending]
    congr 1
    refine List.ext_getElem? fun i => ?_
    rw [List.getElem?_map, List.getElem?_map, Array.getElem?_toList, Array.getElem?_toList,
      hupdates i, Option.map_map]
    exact congrArg (Option.map · _) (funext (hpid i))
  refine ⟨⟨hpids ▸ hw.nodup, fun q hq => ?_, hpending ▸ hw.pending_new⟩, hnextPid.ge, fun q hq =>
    .inl (hcomes q hq)⟩
  obtain ⟨p, hp, hpid, -⟩ := hcomes q hq
  rw [hnextPid, ← hpid]
  exact hw.lt_nextPid p hp

theorem Advances.refl (hw : w.Numbered) : Advances w w :=
  .of_updates hw rfl rfl (Updates.of_table rfl) (fun _ _ => rfl) fun _ _ _ => .refl _

theorem follows_switched {previous : Option ℕ} {next : ℕ}
    (hnext : i = next → p.state.isRunnable = true) :
    Follows p.state (switched previous next i p).state := by
  rcases switched_state previous next i p with ⟨hrun, hi⟩ | ⟨hready, -, hran⟩ | ⟨hsame, -⟩
  · rw [hrun]
    have hrunnable := hnext hi
    revert hrunnable
    cases p.state <;> decide
  · rw [hready, hran]
    exact .inr rfl
  · exact .inl hsame.symm

theorem pid_switched (previous : Option ℕ) (next i : ℕ) (p : ProcessDescriptor) :
    (switched previous next i p).pid = p.pid := by
  obtain ⟨_, _, _, hsame⟩ := sameProcess_switched previous next i p
  rw [hsame]

/-- A switch counts nothing. -/
theorem counts_of_dispatch? {sw : Switch} (h : s.dispatch? = some (sw, t)) :
    t.nextPid = s.nextPid ∧ t.ticks = s.ticks := by
  rw [dispatch?] at h
  split at h
  · contradiction
  · split at h
    · contradiction
    · split at h
      · contradiction
      · obtain ⟨-, rfl⟩ := Prod.mk.inj (Option.some.inj h)
        cases s.current <;> exact ⟨rfl, rfl⟩

theorem Advances.of_dispatch? (hw : w.Numbered) {sw : Switch}
    (h : w.scheduler.dispatch? = some (sw, t)) : Advances w { w with scheduler := t } := by
  obtain ⟨p, hp, hrunnable, -, -, -, -, -, -, hupdates⟩ := dispatch?_eq_some h
  refine .of_updates hw rfl (counts_of_dispatch? h).1 hupdates
    (fun i q => pid_switched _ _ i q) fun i q hq => follows_switched ?_
  rintro rfl
  rwa [Option.some.inj (hq.symm.trans hp)]

theorem nextPid_of_charge (h : s.charge = .ok t) : t.nextPid = s.nextPid := by
  cases hcurrent : s.current with
  | none =>
    simp only [charge, hcurrent] at h
    rw [← Except.ok.inj h]
  | some i =>
    cases hp : s.table[i]? with
    | none =>
      simp only [charge, hcurrent, hp] at h
      rw [← Except.ok.inj h]
    | some p =>
      rw [charge_of_some hcurrent hp] at h
      obtain ⟨timeUsed, -, rfl⟩ := map_eq_ok h
      rfl

theorem charged_same (current : Option ℕ) (i : ℕ) (p : ProcessDescriptor) :
    (charged current i p).pid = p.pid ∧ (charged current i p).state = p.state := by
  unfold charged
  split <;> exact ⟨rfl, rfl⟩

/-- The account is charged first, which no state depends on. -/
theorem Advances.of_tick (hw : w.Numbered) (h : w.scheduler.tick = .ok (switch, t)) :
    Advances w { w with scheduler := t } := by
  obtain ⟨u, hcharge, hcases⟩ := tick_eq_ok h
  obtain ⟨-, -, -, hupdates⟩ := charge_eq_ok hcharge
  have hnextPid : u.nextPid = w.scheduler.nextPid := (nextPid_of_charge hcharge).trans rfl
  have hsame := charged_same w.scheduler.current
  rcases hcases with ⟨sw, -, -, hdispatch⟩ | ⟨-, rfl, -⟩
  · obtain ⟨p, hp, hrunnable, -, -, -, -, -, -, hswitched⟩ := dispatch?_eq_some hdispatch
    refine .of_updates hw rfl ((counts_of_dispatch? hdispatch).1.trans hnextPid)
      (Updates.trans (fun i => hupdates i) hswitched)
      (fun i q => (pid_switched _ _ i _).trans (hsame i q).1) fun i q hq => ?_
    rw [← (hsame i q).2]
    refine follows_switched ?_
    rintro rfl
    have hcharged : u.table[sw.next]? = some (charged w.scheduler.current sw.next q) :=
      Updates.of_eq_some (fun i => hupdates i) hq
    rwa [Option.some.inj (hcharged.symm.trans hp)]
  · exact .of_updates hw rfl hnextPid (fun i => hupdates i) (fun i p => (hsame i p).1)
      fun i p _ => .inl (hsame i p).2.symm

theorem Advances.of_setState (hw : w.Numbered) {state : ProcessState}
    (h : w.scheduler.setState pid state = .ok t) : Advances w { w with scheduler := t } := by
  obtain ⟨i, p, -, hp, -, hallowed, rfl⟩ := setState_eq_ok h
  refine .of_updates hw rfl rfl (updates_modify w.scheduler i _) (fun j q => ?_) fun j q hq => ?_
  · split <;> rfl
  · by_cases hij : i = j
    · subst hij
      rw [if_pos rfl, Option.some.inj (hq.symm.trans hp)]
      exact .inr hallowed
    · rw [if_neg hij]
      exact .refl _

theorem nextPid_of_setQuantum {ticks : ℕ} (h : s.setQuantum ticks = .ok t) :
    t.nextPid = s.nextPid := by
  rw [setQuantum] at h
  split at h
  · contradiction
  · rw [← Except.ok.inj h]

theorem Advances.of_setQuantum (hw : w.Numbered) {ticks : ℕ}
    (h : w.scheduler.setQuantum ticks = .ok t) : Advances w { w with scheduler := t } := by
  obtain ⟨-, -, -, hupdates⟩ := setQuantum_eq_ok h
  exact .of_updates hw rfl (nextPid_of_setQuantum h) hupdates (fun _ _ => rfl) fun _ _ _ => .refl _

theorem Advances.of_made (hw : w.Numbered) (hpid : p.pid = w.scheduler.nextPid)
    (hstate : p.state = .new) : Advances w
      ⟨{ w.scheduler with nextPid := w.scheduler.nextPid + 1 }, w.pending ++ [p]⟩ := by
  have hprocesses : ∀ q, q ∈ w.processes ++ [p] ↔ q ∈ w.processes ∨ q = p := by simp
  have hassoc : Session.processes ⟨{ w.scheduler with nextPid := w.scheduler.nextPid + 1 },
      w.pending ++ [p]⟩ = w.processes ++ [p] := (List.append_assoc _ _ _).symm
  refine ⟨⟨?_, fun q hq => ?_, fun q hq => ?_⟩, Nat.le_succ _, fun q hq => ?_⟩
  · rw [hassoc, List.map_append, List.nodup_append]
    refine ⟨hw.nodup, List.nodup_singleton _, fun a ha b hb => ?_⟩
    obtain ⟨q, hq, rfl⟩ := List.mem_map.mp ha
    obtain rfl : b = p.pid := by simpa using hb
    exact hpid ▸ (hw.lt_nextPid q hq).ne
  · rcases (hprocesses q).mp (hassoc ▸ hq) with hold | rfl
    · exact Nat.lt_succ_of_lt (hw.lt_nextPid q hold)
    · exact hpid ▸ Nat.lt_succ_self _
  · rcases List.mem_append.mp hq with hold | hnew
    · exact hw.pending_new q hold
    · rwa [List.mem_singleton.mp hnew]
  · rcases (hprocesses q).mp (hassoc ▸ hq) with hold | rfl
    · exact .inl ⟨q, hold, rfl, .refl _⟩
    · exact .inr ⟨hpid.ge, hstate⟩

/-- A descriptor that does not get into the table is dropped. -/
theorem Advances.of_drop (hw : w.Numbered) (k : ℕ) :
    Advances w ⟨w.scheduler, w.pending.eraseIdx k⟩ := by
  have hsublist : (Session.processes ⟨w.scheduler, w.pending.eraseIdx k⟩).Sublist w.processes :=
    (List.Sublist.refl _).append (List.eraseIdx_sublist _ _)
  exact ⟨⟨hw.nodup.sublist (hsublist.map _), fun q hq => hw.lt_nextPid q (hsublist.mem hq),
    fun q hq => hw.pending_new q (List.mem_of_mem_eraseIdx hq)⟩, le_rfl,
    fun q hq => .inl ⟨q, hsublist.mem hq, rfl, .refl _⟩⟩

theorem Advances.of_append (hw : w.Numbered) {k : ℕ} (hp : w.pending[k]? = some p) :
    Advances w ⟨w.scheduler.append p, w.pending.eraseIdx k⟩ := by
  obtain ⟨hk, rfl⟩ := List.getElem?_eq_some_iff.mp hp
  have hnew := hw.pending_new _ (List.getElem_mem hk)
  have hmem : ∀ q ∈ Session.processes ⟨w.scheduler.append w.pending[k], w.pending.eraseIdx k⟩,
      ∃ p ∈ w.processes, p.pid = q.pid ∧ Follows p.state q.state := by
    intro q hq
    simp only [Session.processes, append, Array.toList_push, List.mem_append,
      List.mem_singleton] at hq
    rcases hq with (hq | rfl) | hq
    · exact ⟨q, List.mem_append_left _ hq, rfl, .refl _⟩
    · exact ⟨w.pending[k], List.mem_append_right _ (List.getElem_mem hk), rfl,
        .inr (by rw [hnew]; rfl)⟩
    · exact ⟨q, List.mem_append_right _ (List.mem_of_mem_eraseIdx hq), rfl, .refl _⟩
  -- the descriptor goes from one list to the other
  have hpids : ((Session.processes ⟨w.scheduler.append w.pending[k],
      w.pending.eraseIdx k⟩).map (·.pid)).Perm (w.processes.map (·.pid)) := by
    have hperm := (List.getElem_cons_eraseIdx_perm hk).map (·.pid)
    simpa [Session.processes, append] using hperm.append_left _
  refine ⟨⟨hpids.nodup_iff.mpr hw.nodup, fun q hq => ?_, fun q hq =>
    hw.pending_new q (List.mem_of_mem_eraseIdx hq)⟩, le_rfl, fun q hq => .inl (hmem q hq)⟩
  obtain ⟨p, hp, hpid, -⟩ := hmem q hq
  exact hpid ▸ hw.lt_nextPid p hp

/-- The last process of the table is promoted from ready. -/
theorem Advances.of_promote (hw : w.Numbered)
    (hlast : ∀ q, w.scheduler.table[w.scheduler.table.size - 1]? = some q → q.state = .ready) :
    Advances w { w with scheduler := w.scheduler.promote } := by
  unfold promote
  split
  · refine .of_updates hw rfl rfl
      (updates_modify w.scheduler _ fun p => { p with state := .running }) (fun j q => ?_)
      fun j q hq => ?_
    · split <;> rfl
    · by_cases hj : w.scheduler.table.size - 1 = j
      · subst hj
        rw [if_pos rfl, hlast q hq]
        exact .inr rfl
      · rw [if_neg hj]
        exact .refl _
  · exact .refl hw

/-- Whatever the operation, every write of a state is a step of the life cycle. -/
theorem Operation.advances (hw : w.Numbered) (hreset : operation ≠ .reset)
    (h : operation.perform w = .ok (switch, w')) :
    (w :: operation.between w ++ [w']).IsChain Advances := by
  -- but for a registration there is nothing between the two sessions
  have hpair : ∀ {u : Session}, Advances w u → (w :: [] ++ [u]).IsChain Advances :=
    fun hadvances => List.isChain_cons_cons.mpr ⟨hadvances, List.isChain_singleton _⟩
  cases operation.effect h with
  | failed _ _ absent =>
    have hbetween : operation.between w = [] := by
      cases operation with
      | enlist k => simp only [between, absent k rfl]
      | _ => rfl
    rw [hbetween]
    exact hpair (.refl hw)
  | made makes pid state _ =>
    have hbetween : operation.between w = [] := by
      cases operation with
      | enlist k => exact makes.elim
      | _ => rfl
    rw [hbetween]
    exact hpair (.of_made hw pid state)
  | @dropped k p pending full =>
    have hbetween : (Operation.enlist k).between w = [] := by
      simp only [between, pending, if_pos full]
    rw [hbetween]
    exact hpair (.of_drop hw k)
  | @enlisted k p pid s pending enlist =>
    obtain ⟨hspace, -, -⟩ := enlist_eq_ok enlist
    have hresult := (enlist_eq_promote hspace).symm.trans enlist
    obtain ⟨-, rfl⟩ := Prod.mk.inj (Except.ok.inj hresult)
    have hbetween : (Operation.enlist k).between w =
        [⟨w.scheduler.append p, w.pending.eraseIdx k⟩] := by
      simp only [between, pending, if_neg (Nat.not_le_of_lt hspace)]
    have happend := Advances.of_append hw pending
    have hpromote := Advances.of_promote happend.numbered (by simp [append])
    rw [hbetween]
    exact List.isChain_cons_cons.mpr ⟨happend, List.isChain_cons_cons.mpr
      ⟨hpromote, List.isChain_singleton _⟩⟩
  | ticked tick => exact hpair (.of_tick hw tick)
  | dispatched dispatch => exact hpair (.of_dispatch? hw dispatch)
  | moved set => exact hpair (.of_setState hw set)
  | retimed set => exact hpair (.of_setQuantum hw set)
  | reset => exact absurd rfl hreset

theorem Operation.numbered (hw : w.Numbered) (hreset : operation ≠ .reset)
    (h : operation.perform w = .ok (switch, w')) : w'.Numbered := by
  obtain ⟨-, -, hlast⟩ := List.isChain_append.mp (operation.advances hw hreset h)
  exact (hlast _ (List.getLast?_cons ..) w' rfl).numbered

/-! ## Running and terminated processes -/

/-- Without a switch or a registration nobody starts to run. -/
theorem Step.ran (hstep : Step s t operation none) (henlist : ∀ k, operation ≠ .enlist k)
    (hreset : operation ≠ .reset) (hq : t.table[i]? = some q) (hrun : q.state = .running) :
    ∃ p, s.table[i]? = some p ∧ p.pid = q.pid ∧ p.state = .running := by
  cases hstep with
  | quiet table _ _ => exact ⟨q, table ▸ hq, rfl, hrun⟩
  | enlisted => exact absurd rfl (henlist _)
  | ticked charge switched =>
    rcases switched with ⟨sw, hsw, -⟩ | ⟨-, rfl⟩
    · contradiction
    · obtain ⟨-, -, -, hupdates⟩ := charge_eq_ok charge
      obtain ⟨p, hp, rfl⟩ := hupdates.eq_some hq
      obtain ⟨hpid, hstate⟩ := charged_same s.current i p
      exact ⟨p, hp, hpid.symm, hstate.symm.trans hrun⟩
  | moved set =>
    obtain ⟨j, -, -, -, hstate, -, rfl⟩ := setState_eq_ok set
    obtain ⟨p, hp, rfl⟩ := (updates_modify s j _).eq_some hq
    by_cases hij : j = i
    · rw [if_pos hij] at hrun
      exact absurd hrun hstate
    · rw [if_neg hij] at hrun ⊢
      exact ⟨p, hp, rfl, hrun⟩
  | retimed set =>
    obtain ⟨-, -, -, hupdates⟩ := setQuantum_eq_ok set
    obtain ⟨p, hp, rfl⟩ := hupdates.eq_some hq
    exact ⟨p, hp, rfl, hrun⟩
  | reset => exact absurd rfl hreset

/-- The operation registers the pending process with a pid, as the first one of the table. -/
def Promotes (w : Session) (operation : Operation) (pid : Pid) : Prop :=
  ∃ k p, operation = .enlist k ∧ w.pending[k]? = some p ∧ p.pid = pid ∧
    w.scheduler.table.size = 0

/-- A process starts to run as the first one of the table, or because of a switch to it. -/
theorem Operation.starts (hw : w.Numbered) (hcoherent : Coherent w.scheduler)
    (hreset : operation ≠ .reset) (h : operation.perform w = .ok (switch, w'))
    (hrun : w'.state? pid = some .running) (hnot : w.state? pid ≠ some .running) :
    Promotes w operation pid ∨ ∃ sw, switch = some sw ∧ sw.nextPid = pid := by
  have hstep := operation.step h
  obtain ⟨q, hq, rfl, hqrun⟩ := Session.exists_of_state? hrun
  obtain ⟨i, hi⟩ : ∃ i : ℕ, w'.scheduler.table[i]? = some q := by
    rcases Session.mem_processes.mp hq with htable | hpending
    · exact htable
    · have hnew := (operation.numbered hw hreset h).pending_new q hpending
      simp [hnew] at hqrun
  -- whoever ran before is ruled out
  have hbefore : ¬ ∃ p, w.scheduler.table[i]? = some p ∧ p.pid = q.pid ∧ p.state = .running := by
    rintro ⟨p, hp, hpid, hprun⟩
    have hstate := hw.state?_eq (Session.mem_processes.mpr (.inl ⟨i, hp⟩))
    rw [hpid, hprun] at hstate
    exact hnot hstate
  cases switch with
  | some sw =>
    obtain ⟨-, -, next, -, -, hcurrent, hnext, -, -, -, hnextPid, -⟩ := hstep.handsOver hcoherent
    have hslot := (hcoherent.step hstep).running hi hqrun
    obtain rfl : sw.next = i := Option.some.inj (hcurrent.symm.trans hslot)
    obtain rfl : next = q := Option.some.inj (hnext.symm.trans hi)
    exact .inr ⟨sw, rfl, hnextPid⟩
  | none =>
    by_cases henlist : ∃ k, operation = .enlist k
    · obtain ⟨k, rfl⟩ := henlist
      cases Operation.effect h with
      | failed => exact absurd ⟨q, hi, rfl, hqrun⟩ hbefore
      | made makes => exact makes.elim
      | dropped => exact absurd ⟨q, hi, rfl, hqrun⟩ hbefore
      | enlisted pending enlist =>
        obtain ⟨-, -, rfl⟩ := enlist_eq_ok enlist
        rw [Array.getElem?_push] at hi
        split at hi
        · obtain rfl := Option.some.inj hi
          have hnone : w.scheduler.current = none := by
            cases hcurrent : w.scheduler.current with
            | none => rfl
            | some c => simp [enlisted, hcurrent] at hqrun
          exact .inl ⟨k, _, rfl, pending, rfl, hcoherent.current_none.mp hnone⟩
        · exact absurd ⟨q, hi, rfl, hqrun⟩ hbefore
    · exact absurd (hstep.ran (not_exists.mp henlist) hreset hi hqrun) hbefore

/-- Nothing comes after being terminated. -/
theorem eq_terminated_of_isChain {states : List ProcessState} (h : states.IsChain Follows)
    (hhead : states.head? = some .terminated) : ∀ a ∈ states, a = .terminated := by
  induction states with
  | nil => exact nofun
  | cons a states ih =>
    obtain rfl := Option.some.inj hhead
    obtain ⟨hnext, hchain⟩ := List.isChain_cons.mp h
    rintro b (- | ⟨-, hb⟩)
    · rfl
    · refine ih hchain ?_ b hb
      obtain ⟨c, hc⟩ : ∃ c, states.head? = some c := by
        cases states with
        | nil => contradiction
        | cons c _ => exact ⟨c, rfl⟩
      rcases hnext c hc with hsame | hallowed
      · rw [hc, ← hsame]
      · simp at hallowed

theorem Operation.keeps_terminated (hw : w.Numbered) (hreset : operation ≠ .reset)
    (h : operation.perform w = .ok (switch, w')) (hstate : w.state? pid = some .terminated) :
    w'.state? pid = some .terminated := by
  obtain ⟨p, hp, rfl, hterminated⟩ := Session.exists_of_state? hstate
  have hw' := operation.numbered hw hreset h
  -- only a process in the table is terminated, and it stays in its slot
  obtain ⟨q, hq, hpid⟩ : ∃ q ∈ w'.processes, q.pid = p.pid := by
    rcases Session.mem_processes.mp hp with ⟨i, hi⟩ | hpending
    · obtain ⟨q, hq, hpid, -⟩ := (operation.step h).keeps hreset i p hi
      exact ⟨q, Session.mem_processes.mpr (.inl ⟨i, hq⟩), hpid⟩
    · have hnew := hw.pending_new p hpending
      simp [hnew] at hterminated
  have hq' := hw'.state?_eq hq
  rw [hpid] at hq'
  obtain ⟨hchain, -⟩ := isChain_states hw (operation.advances hw hreset h) p.pid
  have hall := eq_terminated_of_isChain hchain (by
    rw [List.filterMap_cons_some (by exact hstate)]
    rfl)
  have hmem : q.state ∈ (w :: operation.between w ++ [w']).filterMap (·.state? p.pid) :=
    List.mem_filterMap.mpr ⟨w', List.mem_append_right _ List.mem_cons_self, hq'⟩
  rw [hq', hall q.state hmem]

/-! ## Sessions -/

theorem isChain_passed {operations : List Operation} (hw : w.Numbered)
    (hreset : .reset ∉ operations) : (passed operations w).IsChain Advances := by
  induction operations generalizing w with
  | nil => exact List.isChain_singleton _
  | cons operation rest ih =>
    rw [List.mem_cons, not_or] at hreset
    rw [passed]
    split
    · exact List.isChain_singleton _
    · rename_i switch w' hperform
      have hstep := operation.advances hw (Ne.symm hreset.1) hperform
      have hrest := ih (operation.numbered hw (Ne.symm hreset.1) hperform) hreset.2
      obtain ⟨later, hlater⟩ := passed_eq_cons rest w'
      rw [hlater] at hrest ⊢
      exact List.isChain_split.mpr ⟨hstep, hrest⟩

/-- What the operations but a reset keep holds at the end of a session. -/
theorem performAll_preserves {J : Session → Prop} {operations : List Operation} (hw : J w)
    (hreset : .reset ∉ operations) (hrun : performAll operations w = .ok w')
    (hstep : ∀ {operation : Operation} {switch w w'}, operation ≠ .reset → J w →
      operation.perform w = .ok (switch, w') → J w') : J w' := by
  induction operations generalizing w with
  | nil =>
    obtain rfl := Except.ok.inj hrun
    exact hw
  | cons operation rest ih =>
    rw [List.mem_cons, not_or] at hreset
    rw [performAll] at hrun
    split at hrun
    · contradiction
    · rename_i switch w'' hperform
      exact ih (hstep (Ne.symm hreset.1) hw hperform) hreset.2 hrun

theorem numbered_of_performAll {operations : List Operation} (hw : w.Numbered)
    (hreset : .reset ∉ operations) (hrun : performAll operations w = .ok w') : w'.Numbered :=
  performAll_preserves hw hreset hrun fun hno hw hperform => Operation.numbered hw hno hperform

theorem terminated_of_performAll {operations : List Operation} (hw : w.Numbered)
    (hreset : .reset ∉ operations) (hrun : performAll operations w = .ok w')
    (hstate : w.state? pid = some .terminated) : w'.state? pid = some .terminated :=
  (performAll_preserves (J := fun w => w.Numbered ∧ w.state? pid = some .terminated) ⟨hw, hstate⟩
    hreset hrun fun hno hw hperform => ⟨Operation.numbered hw.1 hno hperform,
      Operation.keeps_terminated hw.1 hno hperform hw.2⟩).2

/-- Nobody switches to a terminated process. -/
theorem Operation.ne_terminated (hw : w.Numbered) (hcoherent : Coherent w.scheduler) {sw : Switch}
    (h : operation.perform w = .ok (some sw, w')) (hstate : w.state? pid = some .terminated) :
    sw.nextPid ≠ pid := by
  have hstep := operation.step h
  have hreset : operation ≠ .reset := by
    rintro rfl
    exact absurd (Prod.mk.inj (Except.ok.inj h)).1 nofun
  obtain ⟨-, -, q, -, -, -, hq, hrun, -, -, hnextPid, -⟩ := hstep.handsOver hcoherent
  rintro rfl
  have hq' := (operation.numbered hw hreset h).state?_eq (Session.mem_processes.mpr (.inl ⟨_, hq⟩))
  rw [← hnextPid, operation.keeps_terminated hw hreset h hstate, hrun] at hq'
  contradiction

/-- The states of a process are a path of the life cycle from new on, as far as a session goes. A
process starts to run when it is registered as the first one, or by a switch to it. Once terminated
it stays so, and no switch goes to it any more. -/
theorem states_follow_lifeCycle {operations : List Operation} (hreset : .reset ∉ operations)
    (pid : Pid) :
    ((passed operations .start).filterMap (·.state? pid)).IsChain
        (fun a b => a = b ∨ a.canBecome b = true) ∧
      (∀ a ∈ ((passed operations .start).filterMap (·.state? pid)).head?, a = .new) ∧
      ∀ w, performAll operations .start = .ok w →
        (passed operations .start).getLast? = some w ∧
        (∀ operation switch w', operation ≠ .reset → operation.perform w = .ok (switch, w') →
          w'.state? pid = some .running → w.state? pid ≠ some .running →
          Promotes w operation pid ∨ ∃ sw, switch = some sw ∧ sw.nextPid = pid) ∧
        (w.state? pid = some .terminated → ∀ later w', .reset ∉ later →
          performAll later w = .ok w' → w'.state? pid = some .terminated ∧
            ∀ operation sw w'', Operation.perform w' operation = .ok (some sw, w'') →
              sw.nextPid ≠ pid) := by
  obtain ⟨rest, hpassed⟩ := passed_eq_cons operations .start
  have hchain := isChain_passed Session.numbered_start hreset
  rw [hpassed] at hchain
  obtain ⟨hstates, hhead⟩ := isChain_states Session.numbered_start hchain pid
  rw [← hpassed] at hstates hhead
  refine ⟨hstates, fun a ha => ?_, fun w hrun => ?_⟩
  · rcases hhead a ha with hstart | ⟨-, -, hnew⟩
    · simp [Session.state?, Session.processes, Session.start, empty] at hstart
    · exact hnew
  have hw := numbered_of_performAll Session.numbered_start hreset hrun
  have hcoherent : Coherent w.scheduler :=
    performAll_induction (coherent_empty 10) hrun fun _ h hstep => h.step hstep
  refine ⟨getLast?_passed hrun, fun operation switch w' hno hperform hruns hran =>
    operation.starts hw hcoherent hno hperform hruns hran,
    fun hstate later w' hlater hrun' => ?_⟩
  have hstate' := terminated_of_performAll hw hlater hrun' hstate
  have hcoherent' : Coherent w'.scheduler :=
    performAll_induction hcoherent hrun' fun _ h hstep => h.step hstep
  exact ⟨hstate', fun operation sw w'' hperform => operation.ne_terminated
    (numbered_of_performAll hw hlater hrun') hcoherent' hperform hstate'⟩

/-- A session comes to its end if something can be read off the end. -/
theorem exists_performAll {operations : List Operation} {α : Type} {f : Session → Option α} {a : α}
    (h : (performAll operations w).toOption.bind f = some a) :
    ∃ w', performAll operations w = .ok w' ∧ f w' = some a := by
  cases hrun : performAll operations w with
  | error stop => simp [hrun, Except.toOption] at h
  | ok w' => exact ⟨w', rfl, by simpa [hrun, Except.toOption] using h⟩

/-- The first process runs, hands over to the second one and is terminated. A dispatch that finds
nobody else changes nothing. -/
theorem states_follow_lifeCycle_of_two_processes :
    ∃ operations w w', .reset ∉ operations ∧ performAll operations .start = .ok w ∧
      performAll [.dispatch] w = .ok w' ∧
      (passed operations .start).filterMap (·.state? 1) = [.new, .new, .ready, .running, .running,
        .running, .ready, .terminated] ∧
      ((passed operations .start).filterMap (·.state? 1)).IsChain
        (fun a b => a = b ∨ a.canBecome b = true) ∧
      w'.state? 1 = some .terminated := by
  let operations : List Operation :=
    [.adopt true, .adopt true, .enlist 0, .enlist 0, .dispatch, .setState 1 .terminated]
  have hreset : .reset ∉ operations := by decide
  have hstates : (passed operations .start).filterMap (·.state? 1) = [.new, .new, .ready, .running,
      .running, .running, .ready, .terminated] := by decide +kernel
  obtain ⟨w, hrun, hstate⟩ : ∃ w, performAll operations .start = .ok w ∧
      w.state? 1 = some .terminated := exists_performAll (by decide +kernel)
  obtain ⟨w', hrun'⟩ : ∃ w', performAll [.dispatch] w = .ok w' := by
    simp only [performAll, Operation.perform]
    cases w.scheduler.dispatch? <;> exact ⟨_, rfl⟩
  obtain ⟨hchain, -, hend⟩ := states_follow_lifeCycle hreset 1
  obtain ⟨-, -, hterminated⟩ := hend w hrun
  exact ⟨operations, w, w', hreset, hrun, hrun', hstates, hchain,
    (hterminated hstate [.dispatch] w' (by decide) hrun').1⟩

end Scheduler

end KernelCore
