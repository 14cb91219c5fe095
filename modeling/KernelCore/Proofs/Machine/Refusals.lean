import KernelCore.Proofs.Machine.NewProcesses
import KernelCore.Proofs.Scheduler.Pids

/-!
# Refused calls of the scheduler

A call of the scheduler that is refused may have written a sentinel or a record by then, but not to
the scheduler: that a pid is free is found out before it is taken, and that a table has room before
anything is put there. So a process that is not made takes no pid, and the processes made since a
reset have the pids 1, 2, 3 and so on, whatever else was called for in between.
-/

namespace KernelCore

open Kernel Scheduler

-- comparing memories is not to come down to writing bytes
seal Memory.setWord

instance (plan : ProcessPlan) : Decidable plan.Unfit := inferInstanceAs (Decidable (_ ∨ _))

/-! ## Calls -/

/-- What is asked of the scheduler, or happens beside it. -/
inductive ProcessCall
  | create (plan : ProcessPlan) (memory : Bool)
  | adopt (memory : Bool)
  /-- Registers the held descriptor of a number, which is gone then also if that fails. -/
  | enlist (k : ℕ)
  | drop (k : ℕ)
  | setState (pid : Pid) (state : ProcessState)
  | setQuantum (ticks : ℕ)
  | tick
  | dispatch
  | carryOut (sw : Switch)
  | reset
  /-- Something that does not concern the scheduler. -/
  | meanwhile (change : Machine → Machine)

inductive ProcessReply
  | made (pid : Pid)
  | registered (pid : Pid)
  | refused (e : SchedulerError)
  | done
deriving DecidableEq

namespace ProcessReply

def error? : ProcessReply → Option SchedulerError
  | .refused e => some e
  | .made _ | .registered _ | .done => none

def made? : ProcessReply → Option Pid
  | .made pid => some pid
  | .registered _ | .refused _ | .done => none

def ofPid : Except SchedulerError Pid → ProcessReply
  | .ok pid => .registered pid
  | .error e => .refused e

def ofUnit : Except SchedulerError Unit → ProcessReply
  | .ok _ => .done
  | .error e => .refused e

end ProcessReply

/-- Pids of the processes that were made, in the order in which they were. -/
def madePids (replies : List ProcessReply) : List Pid := replies.filterMap ProcessReply.made?

namespace ProcessCall

/-- Takes the outcome of making a process. -/
def hold (held : List ProcessDescriptor) :
    Except SchedulerError ProcessDescriptor → ProcessReply × List ProcessDescriptor
  | .ok p => (.made p.pid, held ++ [p])
  | .error e => (.refused e, held)

/-- Carries a call out, with the descriptors that are held and not registered. -/
def perform (held : List ProcessDescriptor) :
    ProcessCall → Kernel (ProcessReply × List ProcessDescriptor)
  | .create plan memory => hold held <$> Kernel.newProcess plan memory
  | .adopt memory => hold held <$> adoptBoot memory
  | .enlist k =>
    match held[k]? with
    | none => pure (.done, held)
    | some p => (fun r => (.ofPid r, held.eraseIdx k)) <$> Kernel.enlist p
  | .drop k => pure (.done, held.eraseIdx k)
  | .setState pid state => (fun r => (.ofUnit r, held)) <$> Kernel.setState pid state
  | .setQuantum ticks => (fun r => (.ofUnit r, held)) <$> Kernel.setQuantum ticks
  | .tick => (fun _ => (.done, held)) <$> accountTick
  | .dispatch => (fun _ => (.done, held)) <$> Kernel.dispatch
  | .carryOut sw => (fun _ => (.done, held)) <$> Kernel.carryOut sw
  | .reset =>
    (fun _ => (.done, held)) <$> modify fun m => { m with scheduler := m.scheduler.reset }
  | .meanwhile change =>
    (fun _ => (.done, held)) <$> modify fun m => { change m with scheduler := m.scheduler }

/-- Carries calls out one after the other, and lists the replies. -/
def performAll (held : List ProcessDescriptor) :
    List ProcessCall → Kernel (List ProcessReply × List ProcessDescriptor)
  | [] => pure ([], held)
  | call :: rest => do
    let first ← call.perform held
    let later ← performAll first.2 rest
    pure (first.1 :: later.1, later.2)

/-- Why a call is refused, if it is. -/
def refusal? (s : Scheduler) (held : List ProcessDescriptor) : ProcessCall → Option SchedulerError
  | .create plan memory =>
    if plan.Unfit then some .invalidStack else if memory then none else some .outOfMemory
  | .adopt memory => if memory then none else some .outOfMemory
  | .enlist k => if k < held.length ∧ capacity ≤ s.table.size then some .tableFull else none
  | .setState pid state =>
    match s.process? pid with
    | none => some .noSuchProcess
    | some p =>
      if state = .running ∨ p.state.canBecome state = false then some .invalidTransition else none
  | .setQuantum ticks => if ticks = 0 then some .zeroQuantum else none
  | .drop _ | .tick | .dispatch | .carryOut _ | .reset | .meanwhile _ => none

/-- The stack of a new process is memory. -/
def StackThere (m : Machine) : ProcessCall → Prop
  | .create plan _ => m.ram.covers plan.stack.base plan.stack.size = true
  | _ => True

end ProcessCall

/-! ## What a call does to the scheduler -/

variable {m m' : Machine} {held held' : List ProcessDescriptor} {call : ProcessCall}
  {reply : ProcessReply}

namespace Scheduler

/-- The size of the table and the next pid are the same. -/
def SameCounts (s t : Scheduler) : Prop := t.table.size = s.table.size ∧ t.nextPid = s.nextPid

theorem sameCounts_of_dispatch? {s t : Scheduler} {sw : Switch}
    (h : s.dispatch? = some (sw, t)) : SameCounts s t :=
  ⟨size_of_dispatch? h, (counts_of_dispatch? h).1⟩

theorem sameCounts_of_tick {s t : Scheduler} {switch : Option Switch}
    (h : s.tick = .ok (switch, t)) : SameCounts s t := by
  obtain ⟨u, hcharge, hcases⟩ := tick_eq_ok h
  have hcharged : SameCounts { s with ticks := s.ticks + 1 } u :=
    ⟨size_of_charge hcharge, nextPid_of_charge hcharge⟩
  rcases hcases with ⟨sw, -, -, hdispatch⟩ | ⟨-, rfl, -⟩
  · obtain ⟨hsize, hnextPid⟩ := sameCounts_of_dispatch? hdispatch
    exact ⟨hsize.trans hcharged.1, hnextPid.trans hcharged.2⟩
  · exact hcharged

theorem setState_eq_error_iff {s : Scheduler} {pid : Pid} {state : ProcessState}
    {e : SchedulerError} : s.setState pid state = .error e ↔
      ProcessCall.refusal? s held (.setState pid state) = some e := by
  rw [Scheduler.setState, ProcessCall.refusal?, process?]
  cases s.slot? pid with
  | none => simp [eq_comm]
  | some i =>
    simp only [Option.bind_some]
    cases s.table[i]? with
    | none => simp
    | some p =>
      by_cases hforbidden : state = .running ∨ p.state.canBecome state = false
      · simp [hforbidden]
      · simp [hforbidden]

end Scheduler

namespace Kernel

/-- How the making of a process ends, once its stack is fit. -/
inductive Making (s : Scheduler) (memory : Bool) :
    Except SchedulerError ProcessDescriptor → Scheduler → Prop
  | refused (none : memory = false) : Making s memory (.error .outOfMemory) s
  | made {p : ProcessDescriptor} (some : memory = true) (pid : p.pid = s.nextPid) :
      Making s memory (.ok p) { s with nextPid := s.nextPid + 1 }

theorem making_of_keepDescriptor {privilege : Ring} {heapBase heapSize : UInt64}
    {thread : ThreadState} {memory : Bool} {r : Except SchedulerError ProcessDescriptor}
    (h : keepDescriptor (m.scheduler.newDescriptor privilege heapBase heapSize thread memory) m =
      .ok r m') : Making m.scheduler memory r m'.scheduler := by
  cases memory with
  | false =>
    obtain ⟨rfl, rfl⟩ := EStateM.Result.ok.inj h
    exact .refused rfl
  | true =>
    cases hmade : m.scheduler.newDescriptor privilege heapBase heapSize thread true with
    | error stop =>
      rw [hmade] at h
      contradiction
    | ok made =>
      rw [hmade] at h
      cases made with
      | error e =>
        rw [newDescriptor, if_pos rfl] at hmade
        split at hmade
        · contradiction
        · cases Except.ok.inj hmade
      | ok made =>
        obtain ⟨hpid, -, hscheduler⟩ := newDescriptor_eq_ok hmade
        obtain ⟨rfl, rfl⟩ := EStateM.Result.ok.inj h
        simp only [hscheduler]
        exact .made rfl hpid

/-- An unfit stack is refused at once; otherwise the sentinel is written first. -/
theorem making_of_newProcess {plan : ProcessPlan} {memory : Bool}
    {r : Except SchedulerError ProcessDescriptor} (h : Kernel.newProcess plan memory m = .ok r m') :
    plan.Unfit ∧ r = .error .invalidStack ∧ m'.scheduler = m.scheduler ∨
      ¬ plan.Unfit ∧ Making m.scheduler memory r m'.scheduler := by
  by_cases hunfit : plan.Unfit
  · rw [newProcess_refused hunfit] at h
    obtain ⟨rfl, rfl⟩ := EStateM.Result.ok.inj h
    exact .inl ⟨hunfit, rfl, rfl⟩
  · rw [Kernel.newProcess, ProcessPlan.stackTop?_of_fit hunfit] at h
    simp only [bind, EStateM.bind, storeWord, get_eq] at h
    by_cases hcovers : m.ram.covers (ProcessPlan.sentinelAddress plan.roundedTop) 8 = true
    · rw [if_pos hcovers] at h
      exact .inr ⟨hunfit, making_of_keepDescriptor (m := { m with
        memory := m.memory.setWord (ProcessPlan.sentinelAddress plan.roundedTop) 0 }) h⟩
    · rw [if_neg hcovers] at h
      contradiction

/-- A switch that is carried out saves registers in the table, and changes nothing else there. -/
theorem sameCounts_of_carryOut {sw : Switch} {place : Landing}
    (h : Kernel.carryOut sw m = .ok place m') : SameCounts m.scheduler m'.scheduler := by
  have hrecord : record sw.record m = .ok () { m with console := m.console.log sw.record } := rfl
  rw [Kernel.carryOut, bind_eq_ok hrecord, bind_eq_ok (get_eq _)] at h
  cases hprevious : sw.previous with
  | none =>
    simp only [hprevious] at h
    generalize ContextSwitch.enter _ _ _ = outcome at h
    cases outcome with
    | none => contradiction
    | some p =>
      obtain ⟨-, rfl⟩ := EStateM.Result.ok.inj h
      simp only [switchEnd, hprevious]
      exact ⟨rfl, rfl⟩
  | some i =>
    simp only [hprevious] at h
    generalize ContextSwitch.giveWay _ _ _ _ = outcome at h
    cases outcome with
    | none => contradiction
    | some p =>
      obtain ⟨-, rfl⟩ := EStateM.Result.ok.inj h
      simp only [switchEnd, hprevious]
      exact ⟨(updates_modify _ i _).size, rfl⟩

/-- A process that finds the table full is not registered. -/
theorem enlist_of_full (p : ProcessDescriptor) (h : capacity ≤ m.scheduler.table.size) :
    ∃ console, Kernel.enlist p m = .ok (.error .tableFull) { m with console } := by
  have henlist : m.scheduler.enlist p = .error .tableFull := if_pos h
  have hchange : onScheduler (·.enlist p) m = .ok (.error .tableFull) m := by
    simp only [onScheduler, henlist]
  exact ⟨_, (bind_eq_ok hchange).trans rfl⟩

theorem enlist_of_space (p : ProcessDescriptor) (h : m.scheduler.table.size < capacity) :
    ∃ s console, m.scheduler.enlist p = .ok (p.pid, s) ∧
      Kernel.enlist p m = .ok (.ok p.pid) { m with console, scheduler := s } := by
  obtain ⟨s, henlist⟩ : ∃ s, m.scheduler.enlist p = .ok (p.pid, s) := ⟨_, if_neg (by omega)⟩
  have hchange : onScheduler (·.enlist p) m = .ok (.ok p.pid) { m with scheduler := s } := by
    simp only [onScheduler, henlist]
  exact ⟨s, _, henlist, (bind_eq_ok hchange).trans rfl⟩

theorem setState_cases {pid : Pid} {state : ProcessState} {r : Except SchedulerError Unit}
    (h : Kernel.setState pid state m = .ok r m') :
    (∃ e, r = .error e ∧ m.scheduler.setState pid state = .error e ∧
      m'.scheduler = m.scheduler) ∨
      r = .ok () ∧ m.scheduler.setState pid state = .ok m'.scheduler := by
  simp only [Kernel.setState, bind, EStateM.bind, get_eq, onScheduler] at h
  cases hset : m.scheduler.setState pid state with
  | error e =>
    rw [hset] at h
    obtain ⟨rfl, rfl⟩ := EStateM.Result.ok.inj h
    exact .inl ⟨e, rfl, rfl, rfl⟩
  | ok s =>
    rw [hset] at h
    cases hbefore : m.scheduler.process? pid <;>
    · rw [hbefore] at h
      obtain ⟨rfl, rfl⟩ := EStateM.Result.ok.inj h
      exact .inr ⟨rfl, rfl⟩

end Kernel

namespace ProcessCall

/-- What a call does to the scheduler, by its reply. -/
inductive Effect (s : Scheduler) (call : ProcessCall) : ProcessReply → Scheduler → Prop
  | refused (e : SchedulerError) : Effect s call (.refused e) s
  | made : Effect s call (.made s.nextPid) { s with nextPid := s.nextPid + 1 }
  | registered {pid : Pid} {t : Scheduler} (room : s.table.size < capacity)
      (size : t.table.size = s.table.size + 1) (nextPid : t.nextPid = s.nextPid) :
      Effect s call (.registered pid) t
  | done {t : Scheduler} (same : SameCounts s t) : Effect s call .done t
  | reset (resets : call = .reset) : Effect s call .done s.reset

theorem exists_of_map {α β : Type} {x : Kernel α} {f : α → β} {b : β}
    (h : (f <$> x) m = .ok b m') : ∃ a, x m = .ok a m' ∧ f a = b := by
  simp only [Functor.map, EStateM.map] at h
  cases hx : x m with
  | error halt k => simp [hx] at h
  | ok a k =>
    rw [hx] at h
    obtain ⟨rfl, rfl⟩ := EStateM.Result.ok.inj h
    exact ⟨a, rfl, rfl⟩

theorem effect_of_making {memory : Bool} {r : Except SchedulerError ProcessDescriptor}
    {t : Scheduler} (h : Making m.scheduler memory r t) :
    (hold held r).1.error? = (if memory then none else some .outOfMemory) ∧
      Effect m.scheduler call (hold held r).1 t := by
  cases h with
  | refused hnone => exact ⟨by rw [hnone]; rfl, .refused _⟩
  | made hsome hpid =>
    refine ⟨by rw [hsome]; rfl, ?_⟩
    rw [hold, hpid]
    exact .made

/-- A call that comes to an end is refused if there is a reason to, and only then; and a call that
is refused has done nothing to the scheduler. -/
theorem effect_of_perform (h : call.perform held m = .ok (reply, held') m') :
    reply.error? = call.refusal? m.scheduler held ∧
      Effect m.scheduler call reply m'.scheduler := by
  cases call with
  | create plan memory =>
    obtain ⟨r, hdone, hreply⟩ := exists_of_map h
    obtain rfl : (hold held r).1 = reply := congrArg Prod.fst hreply
    rcases making_of_newProcess hdone with ⟨hunfit, rfl, hsame⟩ | ⟨hfit, hmaking⟩
    · rw [refusal?, if_pos hunfit, hsame]
      exact ⟨rfl, .refused _⟩
    · rw [refusal?, if_neg hfit]
      exact effect_of_making hmaking
  | adopt memory =>
    obtain ⟨r, hdone, hreply⟩ := exists_of_map h
    obtain rfl : (hold held r).1 = reply := congrArg Prod.fst hreply
    exact effect_of_making (making_of_keepDescriptor hdone)
  | enlist k =>
    cases hp : held[k]? with
    | none =>
      have hlength := List.getElem?_eq_none_iff.mp hp
      simp only [perform, hp] at h
      obtain ⟨hreply, rfl⟩ := EStateM.Result.ok.inj h
      obtain rfl := congrArg Prod.fst hreply
      rw [refusal?, if_neg (by omega)]
      exact ⟨rfl, .done ⟨rfl, rfl⟩⟩
    | some p =>
      have hlength := (List.getElem?_eq_some_iff.mp hp).1
      simp only [perform, hp] at h
      obtain ⟨r, hdone, hreply⟩ := exists_of_map h
      obtain rfl : ProcessReply.ofPid r = reply := congrArg Prod.fst hreply
      by_cases hfull : capacity ≤ m.scheduler.table.size
      · obtain ⟨console, hrefused⟩ := enlist_of_full p hfull
        obtain ⟨rfl, rfl⟩ := EStateM.Result.ok.inj (hrefused.symm.trans hdone)
        rw [refusal?, if_pos ⟨hlength, hfull⟩]
        exact ⟨rfl, .refused _⟩
      · obtain ⟨s, console, henlist, hregistered⟩ := enlist_of_space p (Nat.lt_of_not_le hfull)
        obtain ⟨rfl, rfl⟩ := EStateM.Result.ok.inj (hregistered.symm.trans hdone)
        obtain ⟨hroom, -, rfl⟩ := Scheduler.enlist_eq_ok henlist
        rw [refusal?, if_neg fun hrefused => hfull hrefused.2]
        exact ⟨rfl, .registered hroom (Array.size_push _) rfl⟩
  | drop k =>
    obtain ⟨hreply, rfl⟩ := EStateM.Result.ok.inj h
    obtain rfl := congrArg Prod.fst hreply
    exact ⟨rfl, .done ⟨rfl, rfl⟩⟩
  | setState pid state =>
    obtain ⟨r, hdone, hreply⟩ := exists_of_map h
    obtain rfl : ProcessReply.ofUnit r = reply := congrArg Prod.fst hreply
    rcases setState_cases hdone with ⟨e, rfl, hrefused, hsame⟩ | ⟨rfl, hset⟩
    · rw [setState_eq_error_iff.mp hrefused, hsame]
      exact ⟨rfl, .refused e⟩
    · have hnone : refusal? m.scheduler held (.setState pid state) = none := by
        refine Option.eq_none_iff_forall_ne_some.mpr fun e he => ?_
        rw [setState_eq_error_iff.mpr he] at hset
        contradiction
      obtain ⟨i, -, -, -, -, -, hresult⟩ := Scheduler.setState_eq_ok hset
      rw [hnone, hresult]
      exact ⟨rfl, .done ⟨(updates_modify _ i _).size, rfl⟩⟩
  | setQuantum ticks =>
    obtain ⟨r, hdone, hreply⟩ := exists_of_map h
    obtain rfl : ProcessReply.ofUnit r = reply := congrArg Prod.fst hreply
    simp only [Kernel.setQuantum, onScheduler] at hdone
    cases hset : m.scheduler.setQuantum ticks with
    | error e =>
      rw [hset] at hdone
      obtain ⟨rfl, rfl⟩ := EStateM.Result.ok.inj hdone
      rw [Scheduler.setQuantum] at hset
      split at hset
      · rename_i hzero
        obtain rfl := Except.error.inj hset
        rw [refusal?, if_pos hzero]
        exact ⟨rfl, .refused _⟩
      · contradiction
    | ok s =>
      rw [hset] at hdone
      obtain ⟨rfl, rfl⟩ := EStateM.Result.ok.inj hdone
      obtain ⟨hticks, -, -, hupdates⟩ := setQuantum_eq_ok hset
      rw [refusal?, if_neg hticks]
      exact ⟨rfl, .done ⟨hupdates.size, nextPid_of_setQuantum hset⟩⟩
  | tick =>
    obtain ⟨switch, hdone, hreply⟩ := exists_of_map h
    obtain rfl : ProcessReply.done = reply := congrArg Prod.fst hreply
    simp only [accountTick, bind, EStateM.bind, get_eq] at hdone
    cases htick : m.scheduler.tick with
    | error stop =>
      rw [htick] at hdone
      contradiction
    | ok decided =>
      rw [htick] at hdone
      obtain ⟨-, rfl⟩ := EStateM.Result.ok.inj hdone
      exact ⟨rfl, .done (sameCounts_of_tick htick)⟩
  | dispatch =>
    obtain ⟨switch, hdone, hreply⟩ := exists_of_map h
    obtain rfl : ProcessReply.done = reply := congrArg Prod.fst hreply
    simp only [Kernel.dispatch, bind, EStateM.bind, get_eq] at hdone
    cases hdispatch : m.scheduler.dispatch? with
    | none =>
      rw [hdispatch] at hdone
      obtain ⟨-, rfl⟩ := EStateM.Result.ok.inj hdone
      exact ⟨rfl, .done ⟨rfl, rfl⟩⟩
    | some decided =>
      rw [hdispatch] at hdone
      obtain ⟨-, rfl⟩ := EStateM.Result.ok.inj hdone
      exact ⟨rfl, .done (sameCounts_of_dispatch? hdispatch)⟩
  | carryOut sw =>
    obtain ⟨place, hdone, hreply⟩ := exists_of_map h
    obtain rfl : ProcessReply.done = reply := congrArg Prod.fst hreply
    exact ⟨rfl, .done (sameCounts_of_carryOut hdone)⟩
  | reset =>
    obtain ⟨hreply, rfl⟩ := EStateM.Result.ok.inj h
    obtain rfl := congrArg Prod.fst hreply
    exact ⟨rfl, .reset rfl⟩
  | meanwhile change =>
    obtain ⟨hreply, rfl⟩ := EStateM.Result.ok.inj h
    obtain rfl := congrArg Prod.fst hreply
    exact ⟨rfl, .done ⟨rfl, rfl⟩⟩

theorem map_eq_ok_of {α β : Type} {x : Kernel α} {a : α} (f : α → β) (h : x m = .ok a m') :
    (f <$> x) m = .ok (f a) m' := by
  simp only [Functor.map, EStateM.map, h]

/-- On a stack that is memory a process is refused for want of memory for its descriptor, once the
sentinel is written. -/
theorem newProcess_without_memory {plan : ProcessPlan} (hfit : ¬ plan.Unfit)
    (hstack : m.ram.covers plan.stack.base plan.stack.size = true) :
    ∃ m', Kernel.newProcess plan false m = .ok (.error .outOfMemory) m' := by
  rw [Kernel.newProcess, ProcessPlan.stackTop?_of_fit hfit]
  simp only
  rw [bind_eq_ok (storeWord_eq_ok (ProcessPlan.covers_sentinel hfit hstack) 0)]
  exact ⟨_, rfl⟩

/-- A call with a reason to be refused comes to an end, if the stack of a new process is memory. -/
theorem exists_refused {e : SchedulerError} (hthere : call.StackThere m)
    (h : call.refusal? m.scheduler held = some e) :
    ∃ held' m', call.perform held m = .ok (.refused e, held') m' := by
  suffices hends : ∃ x m', call.perform held m = .ok x m' by
    obtain ⟨⟨reply, held'⟩, m', hperform⟩ := hends
    have hreply := (effect_of_perform hperform).1.trans h
    cases reply <;> cases hreply
    exact ⟨held', m', hperform⟩
  cases call with
  | create plan memory =>
    by_cases hunfit : plan.Unfit
    · exact ⟨_, m, map_eq_ok_of _ (newProcess_refused hunfit memory m)⟩
    · cases memory with
      | true => simp [refusal?, hunfit] at h
      | false =>
        obtain ⟨m', hrefused⟩ := newProcess_without_memory hunfit hthere
        exact ⟨_, m', map_eq_ok_of _ hrefused⟩
  | adopt memory =>
    cases memory with
    | true => simp [refusal?] at h
    | false => exact ⟨_, _, rfl⟩
  | enlist k =>
    rw [refusal?] at h
    split at h
    · rename_i hrefused
      obtain ⟨p, hp⟩ : ∃ p, held[k]? = some p := ⟨_, List.getElem?_eq_getElem hrefused.1⟩
      obtain ⟨console, hfull⟩ := enlist_of_full p hrefused.2
      simp only [perform, hp]
      exact ⟨_, _, map_eq_ok_of _ hfull⟩
    · contradiction
  | setState pid state =>
    have hset := setState_eq_error_iff.mpr h
    have hdone : Kernel.setState pid state m = .ok (.error e) m := by
      simp only [Kernel.setState, bind, EStateM.bind, get_eq, onScheduler, hset]
      rfl
    exact ⟨_, _, map_eq_ok_of _ hdone⟩
  | setQuantum ticks =>
    rw [refusal?] at h
    split at h
    · rename_i hzero
      subst hzero
      exact ⟨_, _, rfl⟩
    · contradiction
  | drop | tick | dispatch | carryOut | reset | meanwhile => contradiction

/-! ## Runs of calls -/

theorem performAll_cons {rest : List ProcessCall} {replies : List ProcessReply}
    (h : performAll held (call :: rest) m = .ok (replies, held') m') :
    ∃ reply held₁ m₁ later, call.perform held m = .ok (reply, held₁) m₁ ∧
      performAll held₁ rest m₁ = .ok (later, held') m' ∧ replies = reply :: later := by
  simp only [performAll, bind, EStateM.bind] at h
  cases hfirst : call.perform held m with
  | error halt m₁ => simp [hfirst] at h
  | ok first m₁ =>
    rw [hfirst] at h
    simp only at h
    cases hrest : performAll first.2 rest m₁ with
    | error halt m₂ => simp [hrest] at h
    | ok later m₂ =>
      rw [hrest] at h
      obtain ⟨hlast, rfl⟩ := EStateM.Result.ok.inj h
      obtain ⟨rfl, rfl⟩ := Prod.mk.inj hlast
      exact ⟨first.1, first.2, m₁, later.1, rfl, hrest, rfl⟩

/-- What every call keeps of the scheduler holds at the end of a run. -/
theorem performAll_induction {J : Scheduler → Prop} {calls : List ProcessCall}
    {replies : List ProcessReply} (hstart : J m.scheduler)
    (hrun : performAll held calls m = .ok (replies, held') m')
    (hstep : ∀ {call reply s t}, J s → Effect s call reply t → J t) : J m'.scheduler := by
  induction calls generalizing held m replies with
  | nil =>
    obtain ⟨-, rfl⟩ := EStateM.Result.ok.inj hrun
    exact hstart
  | cons call rest ih =>
    obtain ⟨reply, held₁, m₁, later, hfirst, hrest, -⟩ := performAll_cons hrun
    exact ih (hstep hstart (effect_of_perform hfirst).2) hrest

/-- The table never has more processes than it holds. -/
theorem size_le_capacity {calls : List ProcessCall} {replies : List ProcessReply}
    (hstart : m.scheduler.table.size ≤ capacity)
    (hrun : performAll held calls m = .ok (replies, held') m') :
    m'.scheduler.table.size ≤ capacity := by
  refine performAll_induction (J := fun s => s.table.size ≤ capacity) hstart hrun ?_
  intro call reply s t hs heffect
  cases heffect with
  | refused | made => exact hs
  | registered room size => omega
  | done same => exact same.1.trans_le hs
  | reset => exact Nat.zero_le _

/-- Until the next reset every process that is made takes the next pid, and no other call does. -/
theorem madePids_eq {calls : List ProcessCall} {replies : List ProcessReply}
    (hrun : performAll held calls m = .ok (replies, held') m') (hreset : .reset ∉ calls) :
    madePids replies = List.range' m.scheduler.nextPid (madePids replies).length ∧
      m'.scheduler.nextPid = m.scheduler.nextPid + (madePids replies).length := by
  induction calls generalizing held m replies with
  | nil =>
    obtain ⟨hreplies, rfl⟩ := EStateM.Result.ok.inj hrun
    obtain ⟨rfl, -⟩ := Prod.mk.inj hreplies
    exact ⟨rfl, rfl⟩
  | cons call rest ih =>
    obtain ⟨reply, held₁, m₁, later, hfirst, hrest, rfl⟩ := performAll_cons hrun
    obtain ⟨hpids, hnextPid⟩ := ih hrest (List.not_mem_of_not_mem_cons hreset)
    have hother : m₁.scheduler.nextPid = m.scheduler.nextPid → reply.made? = none →
        madePids (reply :: later) =
          List.range' m.scheduler.nextPid (madePids (reply :: later)).length ∧
        m'.scheduler.nextPid = m.scheduler.nextPid + (madePids (reply :: later)).length := by
      intro hsame hmade
      rw [madePids, List.filterMap_cons_none hmade, ← hsame]
      exact ⟨hpids, hnextPid⟩
    generalize hs : m₁.scheduler = s at hother hpids hnextPid
    cases hs ▸ (effect_of_perform hfirst).2 with
    | refused => exact hother rfl rfl
    | made =>
      have hmade : madePids (.made m.scheduler.nextPid :: later) =
          m.scheduler.nextPid :: madePids later := rfl
      rw [hmade, List.length_cons, List.range'_succ]
      exact ⟨congrArg _ hpids, hnextPid.trans (Nat.succ_add_eq_add_succ _ _)⟩
    | registered _ _ nextPid => exact hother nextPid rfl
    | done same => exact hother same.2 rfl
    | reset resets => exact absurd (resets ▸ List.mem_cons_self) hreset

theorem performAll_append {before later : List ProcessCall} {replies : List ProcessReply}
    (h : performAll held (before ++ later) m = .ok (replies, held') m') :
    ∃ first held₁ m₁ last, performAll held before m = .ok (first, held₁) m₁ ∧
      performAll held₁ later m₁ = .ok (last, held') m' ∧ replies = first ++ last := by
  induction before generalizing held m replies with
  | nil => exact ⟨[], held, m, replies, rfl, h, rfl⟩
  | cons call rest ih =>
    obtain ⟨reply, held₁, m₁, others, hcall, hrest, rfl⟩ := performAll_cons h
    obtain ⟨first, held₂, m₂, last, hfirst, hlast, rfl⟩ := ih hrest
    refine ⟨reply :: first, held₂, m₂, last, ?_, hlast, rfl⟩
    rw [performAll, bind_eq_ok hcall]
    simp only
    rw [bind_eq_ok hfirst]
    rfl

/-- Nothing was called for since the start or the last reset. -/
def Fresh (calls : List ProcessCall) : Prop := calls = [] ∨ ∃ earlier, calls = earlier ++ [.reset]

theorem Fresh.nextPid_eq {calls : List ProcessCall} {replies : List ProcessReply}
    (h : Fresh calls) (hstart : m.scheduler = .empty)
    (hrun : performAll held calls m = .ok (replies, held') m') : m'.scheduler.nextPid = 1 := by
  obtain rfl | ⟨earlier, rfl⟩ := h
  · obtain ⟨-, rfl⟩ := EStateM.Result.ok.inj hrun
    rw [hstart]
    rfl
  · obtain ⟨_, held₁, m₁, _, -, hreset, -⟩ := performAll_append hrun
    obtain ⟨-, rfl⟩ := EStateM.Result.ok.inj hreset
    rfl

end ProcessCall

/-- While there are pids left, a process is made with the next one. -/
theorem Kernel.exists_made (hpid : m.scheduler.nextPid + 1 < UInt32.size) :
    (∃ p m', adoptBoot true m = .ok (.ok p) m' ∧ p.pid = m.scheduler.nextPid) ∧
      ∀ plan : ProcessPlan, ¬ plan.Unfit → m.ram.covers plan.stack.base plan.stack.size = true →
        ∃ p m', Kernel.newProcess plan true m = .ok (.ok p) m' ∧
          p.pid = m.scheduler.nextPid := by
  constructor
  · obtain ⟨p, hmade, hp, -⟩ := Scheduler.newDescriptor_of_lt hpid Ring.innermost 0 0
      { ThreadState.blank with kernel := true }
    have hadopt : adoptBoot true m = .ok (.ok p) { m with
        scheduler := { m.scheduler with nextPid := m.scheduler.nextPid + 1 } } := by
      rw [adoptBoot, bind_eq_ok (get_eq m), Scheduler.adopt, hmade]
      rfl
    exact ⟨p, _, hadopt, hp⟩
  · intro plan hfit hstack
    obtain ⟨p, hmade, -⟩ := newProcess_of_fit hfit hstack hpid
    rcases making_of_newProcess hmade with ⟨hunfit, -⟩ | ⟨-, hmaking⟩
    · exact absurd hunfit hfit
    · cases hmaking with
      | made _ pid => exact ⟨p, _, hmade, pid⟩

/-- A call that is refused leaves the scheduler as it was. In every state that calls lead to, one
that comes to an end is refused exactly if there is a reason to, and then the scheduler is the same,
with every process in its table; and with a reason, and on a stack that is memory, it does come to
an end. A registration fails exactly if 1024 processes are registered. So the processes that are
made between two resets have the pids 1, 2, 3 and so on, whatever is called for in between; and the
next one is made with the next pid, up to the limit of 32 bits. -/
theorem refused_calls_change_nothing {start : Machine} {before : List ProcessCall}
    {replies : List ProcessReply} (hstart : start.scheduler = .empty)
    (hbefore : ProcessCall.performAll [] before start = .ok (replies, held) m) :
    (∀ (call : ProcessCall) reply held' m', call.perform held m = .ok (reply, held') m' →
      reply.error? = call.refusal? m.scheduler held ∧
      ∀ e, reply = .refused e → m'.scheduler = m.scheduler) ∧
    (∀ (call : ProcessCall) e, call.StackThere m → call.refusal? m.scheduler held = some e →
      ∃ held' m', call.perform held m = .ok (.refused e, held') m') ∧
    (∀ p, (∃ e m', Kernel.enlist p m = .ok (.error e) m') ↔ m.scheduler.table.size = 1024) ∧
    (ProcessCall.Fresh before → ∀ later replies' held' m', ProcessCall.reset ∉ later →
      ProcessCall.performAll held later m = .ok (replies', held') m' →
      ∃ n, madePids replies' = List.range' 1 n ∧
        (n + 2 < 2 ^ 32 →
          (∃ p m'', adoptBoot true m' = .ok (.ok p) m'' ∧ p.pid = n + 1) ∧
          ∀ plan : ProcessPlan, ¬ plan.Unfit →
            m'.ram.covers plan.stack.base plan.stack.size = true →
            ∃ p m'', Kernel.newProcess plan true m' = .ok (.ok p) m'' ∧ p.pid = n + 1)) := by
  refine ⟨fun call reply held' m' hperform => ?_,
    fun call e hthere hreason => ProcessCall.exists_refused hthere hreason, fun p => ?_,
    fun hfresh later replies' held' m' hreset hrun => ?_⟩
  · obtain ⟨hrefusal, heffect⟩ := ProcessCall.effect_of_perform hperform
    refine ⟨hrefusal, ?_⟩
    rintro e rfl
    generalize m'.scheduler = s at heffect ⊢
    cases heffect with
    | refused => rfl
  · have hle : m.scheduler.table.size ≤ 1024 := by
      refine ProcessCall.size_le_capacity ?_ hbefore
      rw [hstart]
      exact Nat.zero_le _
    constructor
    · rintro ⟨e, m', hrefused⟩
      by_contra hne
      obtain ⟨s, console, -, hregistered⟩ :=
        enlist_of_space (m := m) p (lt_of_le_of_ne hle hne)
      cases (EStateM.Result.ok.inj (hregistered.symm.trans hrefused)).1
    · intro hfull
      obtain ⟨console, hrefused⟩ := enlist_of_full (m := m) p hfull.ge
      exact ⟨_, _, hrefused⟩
  · obtain ⟨hpids, hnextPid⟩ := ProcessCall.madePids_eq hrun hreset
    rw [hfresh.nextPid_eq hstart hbefore] at hpids hnextPid
    refine ⟨_, hpids, fun hlimit => ?_⟩
    have hnext : m'.scheduler.nextPid = (madePids replies').length + 1 :=
      hnextPid.trans (Nat.add_comm _ _)
    rw [← hnext]
    refine exists_made ?_
    rw [hnext]
    exact hlimit

/-- A plan for a stack of two words. -/
def twoWordPlan : ProcessPlan := .kernel 0x1000 7 ⟨0x10010, by decide⟩ 16

/-- Calls of which five are refused, with a process that is registered and one that is dropped. -/
def refusedInBetween (root : Frame) : List ProcessCall :=
  [.adopt true, .create twoWordPlan true, .adopt false, .setState 7 .ready, .enlist 0,
    .create (threeWordPlan root) true, .setState 1 .running, .setQuantum 0, .drop 0,
    .create (threeWordPlan root) true]

theorem refused_calls_change_nothing_in_between :
    ∃ replies held m,
      ProcessCall.performAll [] (refusedInBetween ⟨5, by decide⟩) threeWordMachine =
        .ok (replies, held) m ∧
      replies = [.made 1, .refused .invalidStack, .refused .outOfMemory, .refused .noSuchProcess,
        .registered 1, .made 2, .refused .invalidTransition, .refused .zeroQuantum, .done,
        .made 3] ∧
      (∃ n, madePids replies = List.range' 1 n) ∧
      ∃ m', ProcessCall.perform held (.setQuantum 0) m = .ok (.refused .zeroQuantum, held) m' ∧
        m'.scheduler = m.scheduler := by
  have hreplies : (answer? (ProcessCall.performAll [] (refusedInBetween ⟨5, by decide⟩))
      threeWordMachine).map (·.1) = some [.made 1, .refused .invalidStack,
        .refused .outOfMemory, .refused .noSuchProcess, .registered 1, .made 2,
        .refused .invalidTransition, .refused .zeroQuantum, .done, .made 3] := by
    decide +kernel
  obtain ⟨x, hx, hfirst⟩ := Option.map_eq_some_iff.mp hreplies
  have hrun := eq_ok_of_answer? hx
  have hnothing : ProcessCall.performAll [] [] threeWordMachine = .ok ([], []) threeWordMachine :=
    rfl
  obtain ⟨-, -, -, hfresh⟩ := refused_calls_change_nothing rfl hnothing
  obtain ⟨n, hpids, -⟩ := hfresh (.inl rfl) _ x.1 x.2 _ (by simp [refusedInBetween]) hrun
  obtain ⟨hcalls, -, -, -⟩ := refused_calls_change_nothing rfl hrun
  have hzero : ∀ (held : List ProcessDescriptor) (m : Machine),
      ProcessCall.perform held (.setQuantum 0) m = .ok (.refused .zeroQuantum, held) m :=
    fun _ _ => rfl
  exact ⟨x.1, x.2, _, hrun, hfirst, ⟨n, hpids⟩, _, hzero _ _,
    (hcalls _ _ _ _ (hzero _ _)).2 _ rfl⟩

end KernelCore
